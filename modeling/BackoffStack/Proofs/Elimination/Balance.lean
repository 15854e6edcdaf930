/-
The counters of an elimination-backoff stack balance.

A call that goes through the stack is counted when its attempt does. A call that meets a partner is counted
when it takes up what its partner offered, and that is not when its partner is counted: from when one joins
the other until the other learns of it, the slot carries the mark of the joiner, and stands for the one that
is still to be counted. A lost attempt is settled later still, when the visit that follows it comes to an end.
A call that broke off on an overflow of the epoch stays under way, and the value it took is counted with it.
`Counted` says so of every reachable world; once no call is under way, nothing is left to be settled
(`World.counters_balance`).
-/
import BackoffStack.Proofs.Elimination.Linearizable

namespace BackoffStack

variable {α : Type}

/-! ## Calls in flight, counted -/

namespace Flights

variable {γ : Type} {es : List (Nat × γ)} {t : Nat}

theorem lookup_of_lt (h : ∀ e ∈ es, t < e.1) : es.lookup t = none := by
  rw [List.lookup_eq_none_iff]
  exact fun e he => bne_iff_ne.2 (h e he).ne

theorem mem_insertInto {c : γ} {e : Nat × γ} (h : e ∈ insertInto t c es) : e = (t, c) ∨ e ∈ es := by
  induction es with
  | nil => exact .inl (List.mem_singleton.1 h)
  | cons d es ih =>
    unfold insertInto at h
    split at h
    · exact List.mem_cons.1 h
    · split at h
      · exact (List.mem_cons.1 h).imp_right (List.mem_cons_of_mem _)
      · rcases List.mem_cons.1 h with rfl | h
        · exact .inr List.mem_cons_self
        · exact (ih h).imp_right (List.mem_cons_of_mem _)

theorem pairwise_insertInto (h : es.Pairwise (·.1 < ·.1)) (c : γ) :
    (insertInto t c es).Pairwise (·.1 < ·.1) := by
  induction es with
  | nil => exact List.pairwise_singleton ..
  | cons d es ih =>
    obtain ⟨hd, hes⟩ := List.pairwise_cons.1 h
    unfold insertInto
    split
    · next htd =>
      refine List.pairwise_cons.2 ⟨fun e he => ?_, h⟩
      rcases List.mem_cons.1 he with rfl | he
      · exact htd
      · exact htd.trans (hd e he)
    · split
      · next htd => exact List.pairwise_cons.2 ⟨fun e he => htd ▸ hd e he, hes⟩
      · refine List.pairwise_cons.2 ⟨fun e he => ?_, ih hes⟩
        rcases mem_insertInto he with rfl | he
        · dsimp only
          omega
        · exact hd e he

theorem countP_insertInto (h : es.Pairwise (·.1 < ·.1)) (c : γ) (q : γ → Bool) :
    (insertInto t c es).countP (q ·.2) + ((es.lookup t).any q).toNat =
      es.countP (q ·.2) + (q c).toNat := by
  induction es with
  | nil => cases hq : q c <;> simp [insertInto, hq]
  | cons d es ih =>
    obtain ⟨hd, hes⟩ := List.pairwise_cons.1 h
    obtain ⟨u, d⟩ := d
    unfold insertInto
    by_cases htu : t < u
    · have hnone : ((u, d) :: es).lookup t = none := by
        refine lookup_of_lt fun e he => ?_
        rcases List.mem_cons.1 he with rfl | he
        · exact htu
        · exact htu.trans (hd e he)
      rw [if_pos htu, hnone]
      cases hq : q c <;> simp [List.countP_cons, hq]
    · rw [if_neg htu]
      by_cases hut : t = u
      · subst hut
        rw [if_pos rfl]
        cases hq : q c <;> cases hq' : q d <;> simp [hq, hq']
      · have := ih hes
        rw [if_neg hut, List.lookup_cons, beq_eq_false_iff_ne.2 hut]
        simp only [List.countP_cons]
        omega

theorem countP_filter_ne (h : es.Pairwise (·.1 < ·.1)) (q : γ → Bool) :
    (es.filter (·.1 ≠ t)).countP (q ·.2) + ((es.lookup t).any q).toNat = es.countP (q ·.2) := by
  induction es with
  | nil => rfl
  | cons d es ih =>
    obtain ⟨hd, hes⟩ := List.pairwise_cons.1 h
    obtain ⟨u, d⟩ := d
    by_cases htu : t = u
    · subst htu
      have hall : es.filter (·.1 ≠ t) = es := by
        refine List.filter_eq_self.2 fun e he => ?_
        have := hd e he
        simp only [ne_eq, decide_not, Bool.not_eq_eq_eq_not, Bool.not_true, decide_eq_false_iff_not]
        omega
      rw [List.filter_cons_of_neg (by simp), hall]
      cases hq : q d <;> simp [hq]
    · have := ih hes
      rw [List.filter_cons_of_pos (by simpa using Ne.symm htu), List.lookup_cons,
        beq_eq_false_iff_ne.2 htu]
      simp only [List.countP_cons]
      omega

end Flights

/-! ## Counters -/

namespace Stats

variable {s : Stats}

/-- No counter is lower in `s'` than in `s`. -/
def Grows (s s' : Stats) : Prop :=
  s.stackPushes ≤ s'.stackPushes ∧ s.stackPops ≤ s'.stackPops ∧
    s.eliminatedPushes ≤ s'.eliminatedPushes ∧ s.eliminatedPops ≤ s'.eliminatedPops ∧
    s.exchangeTimeouts ≤ s'.exchangeTimeouts ∧ s.lostAttempts ≤ s'.lostAttempts

instance (s s' : Stats) : Decidable (s.Grows s') := inferInstanceAs (Decidable (_ ∧ _))

/-- Operations of a kind that went through the stack. -/
def through (s : Stats) : Kind → Nat
  | .push => s.stackPushes.toNat
  | .pop => s.stackPops.toNat

/-- Operations of a kind that met a partner. -/
def met (s : Stats) : Kind → Nat
  | .push => s.eliminatedPushes.toNat
  | .pop => s.eliminatedPops.toNat

/-- One more operation of a kind through the stack. -/
def pass : Kind → Stats → Stats
  | .push => stackPush
  | .pop => stackPop

/-- One more operation of a kind that met a partner. -/
def meet : Kind → Stats → Stats
  | .push => eliminatedPush
  | .pop => eliminatedPop

theorem toNat_add_one {n : UInt64} (h : n ≤ n + 1) : (n + 1).toNat = n.toNat + 1 := by
  have hle := UInt64.le_iff_toNat_le.1 h
  have hlt := n.toNat_lt
  rw [UInt64.toNat_add] at hle ⊢
  simp only [UInt64.reduceToNat] at hle ⊢
  omega

theorem through_pass {k : Kind} (h : s.Grows (s.pass k)) (k' : Kind) :
    (s.pass k).through k' = s.through k' + (k' == k).toNat := by
  obtain ⟨hpushes, hpops, -⟩ := h
  cases k with
  | push =>
    cases k' with
    | push => exact toNat_add_one hpushes
    | pop => rfl
  | pop =>
    cases k' with
    | push => rfl
    | pop => exact toNat_add_one hpops

theorem met_pass (k k' : Kind) : (s.pass k).met k' = s.met k' := by
  cases k <;> cases k' <;> rfl

theorem met_meet {k : Kind} (h : s.Grows (s.meet k)) (k' : Kind) :
    (s.meet k).met k' = s.met k' + (k' == k).toNat := by
  obtain ⟨-, -, hpushes, hpops, -⟩ := h
  cases k with
  | push =>
    cases k' with
    | push => exact toNat_add_one hpushes
    | pop => rfl
  | pop =>
    cases k' with
    | push => rfl
    | pop => exact toNat_add_one hpops

theorem through_meet (k k' : Kind) : (s.meet k).through k' = s.through k' := by
  cases k <;> cases k' <;> rfl

/-- The visits and the lost attempts are counted apart from the operations. -/
theorem lost_pass (k : Kind) : (s.pass k).lostAttempts = s.lostAttempts ∧
    (s.pass k).exchangeTimeouts = s.exchangeTimeouts := by
  cases k <;> exact ⟨rfl, rfl⟩

theorem lost_meet (k : Kind) : (s.meet k).lostAttempts = s.lostAttempts ∧
    (s.meet k).exchangeTimeouts = s.exchangeTimeouts := by
  cases k <;> exact ⟨rfl, rfl⟩

end Stats
/-! ## Calls -/

/-- Whether a value has gone onto the stack, or off it, in an operation of a kind that ends so. -/
def Outcome.moves : Outcome α → Kind → Bool
  | .pushed, .push => true
  | .popped _, .pop => true
  | _, _ => false

/-- Whether an operation of a kind can end so. -/
def Outcome.ends : Outcome α → Kind → Bool
  | .empty, .pop => true
  | outcome, k => outcome.moves k

theorem Outcome.ends_of_moves {outcome : Outcome α} {k : Kind} (h : outcome.moves k = true) :
    outcome.ends k = true := by
  cases outcome <;> cases k <;> first | exact h | rfl

theorem Outcome.ends_eq {outcome : Outcome α} {k : Kind} (h : outcome.ends k = true) (k' : Kind) :
    outcome.ends k' = (k == k') := by
  cases outcome <;> cases k <;> cases k' <;> first | rfl | cases h

/-- A call that has met a partner has moved a value as one of its kind does. -/
theorem Outcome.moves_met {o theirs : Option α} (h : theirs.isSome = !o.isSome) (k : Kind) :
    (Outcome.met theirs).moves k = (k == Call.kindOf o) := by
  cases o with
  | none =>
    obtain ⟨v, rfl⟩ := Option.isSome_iff_exists.1 h
    cases k <;> rfl
  | some v =>
    obtain rfl : theirs = none := by simpa using h
    cases k <;> rfl

namespace Call

/-- Of two offers that meet, one is made by each kind of call. -/
theorem kindOf_beq_of_isSome {o theirs : Option α} (h : theirs.isSome = !o.isSome) (k : Kind) :
    (kindOf theirs == k) = (k != kindOf o) := by
  rw [kindOf, kindOf, h]
  cases o <;> cases k <;> rfl

/-- Whether a call of a kind has moved its value, and only has to return. -/
def moved (k : Kind) (c : Call α) : Bool :=
  match c.point with
  | .leave outcome => outcome.moves k
  | _ => false

/-- Whether a call has lost an attempt, and its visit to a slot has not come to an end. -/
def away (c : Call α) : Bool :=
  match c.point with
  | .visit _ | .meeting _ _ => true
  | _ => false

/-- Whether a call has taken a value off the stack and broken off with it. -/
def loses (c : Call α) : Bool :=
  match c.point with
  | .stuck _ lost? => lost?.isSome
  | _ => false

/-- A call that knows its outcome ends as one of its kind can. -/
def Suits (c : Call α) : Prop := ∀ outcome, c.point = .leave outcome → outcome.ends c.kind = true

theorem moved_of_point {c : Call α} (h : ∀ outcome, c.point ≠ .leave outcome) (k : Kind) :
    c.moved k = false := by
  unfold moved
  split
  · next hp => exact absurd hp (h _)
  · rfl

theorem suits_of_point {c : Call α} (h : ∀ outcome, c.point ≠ .leave outcome) : c.Suits :=
  fun outcome hp => absurd hp (h outcome)

end Call

/-! ## Slots -/

/-- The kind of the call that has joined the one in a slot. -/
def Slot.joiner (s : Slot α) : Kind := if s.word.address == nullAddress then .pop else .push

/-- Whether the call in a slot has been joined by one of a kind. -/
def Slot.joinedBy (k : Kind) (s : Slot α) : Bool := decide (s.word.state = .busy) && s.joiner == k

/-- Whether the call in a slot has been joined by one of a kind, at a stage. -/
def Stage.joinedBy (k : Kind) : Stage α → Bool
  | .joined _ theirs => Call.kindOf theirs == k
  | _ => false

/-- The word tells by what kind of call the one in the slot has been joined. -/
theorem Slot.Inv.joinedBy_eq {s : Slot α} {stage : Stage α} {parties : Parties α}
    (h : s.Inv stage parties) (k : Kind) : s.joinedBy k = stage.joinedBy k := by
  have hstate := h.writes.state h.aligned
  unfold Slot.joinedBy
  cases stage with
  | vacant => rw [hstate]; rfl
  | waiting t => rw [hstate]; rfl
  | joined t theirs =>
    have hnull := (h.keeps.holds _ _ _ (.slot rfl)).beq_null
    rw [hstate, Slot.joiner, hnull, Stage.joinedBy, Call.kindOf]
    cases theirs <;> rfl

namespace World

variable {w w' : World α} {g : Lifo α} {stages stages' : Nat → Stage α} {t place : Nat}
  {c c' : Call α} {o : Option α} {x x' : Exchange α} {s' : Slot α} {begun : Kind → Nat}

/-- How many calls under way are such. -/
def flying (w : World α) (q : Call α → Bool) : Nat := w.flights.entries.countP (q ·.2)

/-- How many calls are over with such an outcome. -/
def ended (w : World α) (q : Outcome α → Bool) : Nat := w.returned.countP (q ·.2.outcome)

/-- In how many slots a call of a kind has joined the one that waited there, which has not left yet. -/
def joined (w : World α) (k : Kind) : Nat := w.stack.slots.countP (·.joinedBy k)

/-- What the counters of a world count, after so many calls of each kind have begun. -/
structure Counted (w : World α) (begun : Kind → Nat) : Prop where
  ordered : w.flights.entries.Pairwise (·.1 < ·.1)
  suits : ∀ t c, w.flights.find? t = some c → c.Suits
  /-- Every call that has begun is under way, or is over as one of its kind can be. -/
  begun : ∀ k, begun k = w.ended (·.ends k) + w.flying (·.kind == k)
  /-- An operation is counted when it has moved its value. -/
  moved : ∀ k, w.stack.stats.through k + w.stack.stats.met k =
    w.ended (·.moves k) + w.flying (·.moved k)
  /-- The values that went onto the stack went off it, or are there, or are lost with the call that took
  them off. -/
  nodes : w.stack.stats.through .push =
    w.stack.stats.through .pop + w.stack.stack.values.length + w.flying Call.loses
  /-- A push that met a pop, and a pop that met a push, are both counted, or one of them is still to be. -/
  pairs : w.stack.stats.met .push + w.joined .pop = w.stack.stats.met .pop + w.joined .push
  /-- A lost attempt leads to a visit, which ends with or without a partner. -/
  lost : w.stack.stats.lostAttempts.toNat = w.stack.stats.exchangeTimeouts.toNat +
    w.stack.stats.met .push + w.stack.stats.met .pop + w.flying Call.away

/-- What a step of a call changes in the counters, it changes in what they count. -/
structure Tallies (w : World α) (c : Call α) (w' : World α) (c' : Call α) : Prop where
  moved : ∀ k, w'.stack.stats.through k + w'.stack.stats.met k + (c.moved k).toNat =
    w.stack.stats.through k + w.stack.stats.met k + (c'.moved k).toNat
  nodes : w'.stack.stats.through .push + w.stack.stats.through .pop + w.stack.stack.values.length +
      c.loses.toNat =
    w.stack.stats.through .push + w'.stack.stats.through .pop + w'.stack.stack.values.length +
      c'.loses.toNat
  pairs : w'.stack.stats.met .push + w'.joined .pop + w.stack.stats.met .pop + w.joined .push =
    w.stack.stats.met .push + w.joined .pop + w'.stack.stats.met .pop + w'.joined .push
  lost : w'.stack.stats.lostAttempts.toNat + w.stack.stats.exchangeTimeouts.toNat +
      w.stack.stats.met .push + w.stack.stats.met .pop + c.away.toNat =
    w.stack.stats.lostAttempts.toNat + w'.stack.stats.exchangeTimeouts.toNat +
      w'.stack.stats.met .push + w'.stack.stats.met .pop + c'.away.toNat

theorem flying_continueAs (ho : w.flights.entries.Pairwise (·.1 < ·.1))
    (hc : w.flights.find? t = some c) (q : Call α → Bool) :
    (w.continueAs t c').flying q + (q c).toNat = w.flying q + (q c').toNat := by
  have h := Flights.countP_insertInto ho (t := t) c' q
  have hlookup : w.flights.entries.lookup t = some c := hc
  rw [hlookup] at h
  exact h

namespace Counted

theorem goOn (h : w.Counted begun) (hc : w.flights.find? t = some c)
    (hflights : w'.flights = w.flights) (hreturned : w'.returned = w.returned)
    (hkind : c'.kind = c.kind) (hsuits : c'.Suits) (ht : w.Tallies c w' c') :
    (w'.continueAs t c').Counted begun := by
  have hfly : ∀ q : Call α → Bool,
      (w'.continueAs t c').flying q + (q c).toNat = w.flying q + (q c').toNat := by
    intro q
    have hsame : w'.flying q = w.flying q := by rw [flying, flying, hflights]
    rw [← hsame]
    exact flying_continueAs (hflights ▸ h.ordered) (hflights ▸ hc) q
  have hended : ∀ q : Outcome α → Bool, (w'.continueAs t c').ended q = w.ended q := by
    intro q
    show w'.returned.countP _ = _
    rw [hreturned]
    rfl
  have hjoined : ∀ k, (w'.continueAs t c').joined k = w'.joined k := fun _ => rfl
  have hstack : (w'.continueAs t c').stack = w'.stack := rfl
  refine ⟨?_, fun u d hu => ?_, fun k => ?_, fun k => ?_, ?_, ?_, ?_⟩
  · show (Flights.insertInto t c' w'.flights.entries).Pairwise _
    exact Flights.pairwise_insertInto (hflights ▸ h.ordered) c'
  · rw [find?_continueAs] at hu
    split at hu
    · cases hu
      exact hsuits
    · exact h.suits u d (hflights ▸ hu)
  · have hb := h.begun k
    have hf := hfly (·.kind == k)
    rw [hkind] at hf
    rw [hended]
    omega
  · have hm := h.moved k
    have hf := hfly (·.moved k)
    have := ht.moved k
    rw [hended, hstack]
    omega
  · have hn := h.nodes
    have hf := hfly Call.loses
    have := ht.nodes
    rw [hstack]
    omega
  · have hp := h.pairs
    have := ht.pairs
    rw [hstack, hjoined, hjoined]
    omega
  · have hl := h.lost
    have hf := hfly Call.away
    have := ht.lost
    rw [hstack]
    omega

end Counted

namespace Tallies

theorem quiet (hstats : w'.stack.stats = w.stack.stats)
    (hvalues : w'.stack.stack.values = w.stack.stack.values) (hjoined : ∀ k, w'.joined k = w.joined k)
    (hmoved : ∀ k, c'.moved k = c.moved k) (hloses : c'.loses = c.loses) (haway : c'.away = c.away) :
    w.Tallies c w' c' := by
  refine ⟨fun k => ?_, ?_, ?_, ?_⟩
  · rw [hstats, hmoved]
  · rw [hstats, hvalues, hloses]
  · rw [hstats, hjoined, hjoined]
  · rw [hstats, haway]

theorem lose (hstats : w'.stack.stats = w.stack.stats.lostAttempt)
    (hg : w.stack.stats.Grows w.stack.stats.lostAttempt)
    (hvalues : w'.stack.stack.values = w.stack.stack.values) (hjoined : ∀ k, w'.joined k = w.joined k)
    (hmoved : ∀ k, c'.moved k = c.moved k) (hloses : c'.loses = c.loses) (haway : c.away = false)
    (haway' : c'.away = true) : w.Tallies c w' c' := by
  have hlost : w.stack.stats.lostAttempt.lostAttempts.toNat =
      w.stack.stats.lostAttempts.toNat + 1 := Stats.toNat_add_one hg.2.2.2.2.2
  refine ⟨fun k => ?_, ?_, ?_, ?_⟩
  · rw [hstats, hmoved]
    cases k <;> rfl
  · rw [hstats, hvalues, hloses]
    rfl
  · rw [hstats, hjoined, hjoined]
    rfl
  · rw [hstats, haway, haway', hlost]
    simp only [Bool.toNat_false, Bool.toNat_true, Stats.met, Stats.lostAttempt]
    omega

theorem giveUp (hstats : w'.stack.stats = w.stack.stats.exchangeTimeout)
    (hg : w.stack.stats.Grows w.stack.stats.exchangeTimeout)
    (hvalues : w'.stack.stack.values = w.stack.stack.values) (hjoined : ∀ k, w'.joined k = w.joined k)
    (hmoved : ∀ k, c'.moved k = c.moved k) (hloses : c'.loses = c.loses) (haway : c.away = true)
    (haway' : c'.away = false) : w.Tallies c w' c' := by
  have htimeouts : w.stack.stats.exchangeTimeout.exchangeTimeouts.toNat =
      w.stack.stats.exchangeTimeouts.toNat + 1 := Stats.toNat_add_one hg.2.2.2.2.1
  refine ⟨fun k => ?_, ?_, ?_, ?_⟩
  · rw [hstats, hmoved]
    cases k <;> rfl
  · rw [hstats, hvalues, hloses]
    rfl
  · rw [hstats, hjoined, hjoined]
    rfl
  · rw [hstats, haway, haway', htimeouts]
    simp only [Bool.toNat_false, Bool.toNat_true, Stats.met, Stats.exchangeTimeout]
    omega

theorem pass {k : Kind} (hstats : w'.stack.stats = w.stack.stats.pass k)
    (hg : w.stack.stats.Grows (w.stack.stats.pass k))
    (hvalues : w'.stack.stack.values.length + (Kind.pop == k).toNat =
      w.stack.stack.values.length + (Kind.push == k).toNat)
    (hjoined : ∀ k, w'.joined k = w.joined k) (hmoved : ∀ k, c.moved k = false)
    (hmoved' : ∀ k', c'.moved k' = (k' == k)) (hloses : c'.loses = c.loses) (haway : c.away = false)
    (haway' : c'.away = false) : w.Tallies c w' c' := by
  obtain ⟨hlost, htimeouts⟩ := w.stack.stats.lost_pass k
  refine ⟨fun k' => ?_, ?_, ?_, ?_⟩
  · rw [hstats, Stats.through_pass hg, Stats.met_pass, hmoved, hmoved', Bool.toNat_false]
    omega
  · rw [hstats, Stats.through_pass hg, Stats.through_pass hg, hloses]
    omega
  · rw [hstats, Stats.met_pass, Stats.met_pass, hjoined, hjoined]
  · rw [hstats, Stats.met_pass, Stats.met_pass, hlost, htimeouts, haway, haway']

/-- A visit comes to an end with a partner, which is still to be counted, or has been. -/
theorem meet {k : Kind} (hstats : w'.stack.stats = w.stack.stats.meet k)
    (hg : w.stack.stats.Grows (w.stack.stats.meet k))
    (hvalues : w'.stack.stack.values = w.stack.stack.values)
    (hjoined : (∀ k', w'.joined k' = w.joined k' + (k' == k).toNat) ∨
      ∀ k', w'.joined k' + (k' != k).toNat = w.joined k')
    (hmoved : ∀ k, c.moved k = false) (hmoved' : ∀ k', c'.moved k' = (k' == k))
    (hloses : c'.loses = c.loses) (haway : c.away = true) (haway' : c'.away = false) :
    w.Tallies c w' c' := by
  obtain ⟨hlost, htimeouts⟩ := w.stack.stats.lost_meet k
  have hone : (Kind.push == k).toNat + (Kind.pop == k).toNat = 1 := by cases k <;> rfl
  have hpairs : (Kind.push == k).toNat + w'.joined .pop + w.joined .push =
      (Kind.pop == k).toNat + w.joined .pop + w'.joined .push := by
    rcases hjoined with hjoins | hleaves
    · rw [hjoins, hjoins]
      omega
    · have hpush : (Kind.push != k).toNat + (Kind.push == k).toNat = 1 := by cases k <;> rfl
      have hpop : (Kind.pop != k).toNat + (Kind.pop == k).toNat = 1 := by cases k <;> rfl
      rw [← hleaves, ← hleaves]
      omega
  refine ⟨fun k' => ?_, ?_, ?_, ?_⟩
  · rw [hstats, Stats.through_meet, Stats.met_meet hg, hmoved, hmoved', Bool.toNat_false]
    omega
  · rw [hstats, Stats.through_meet, Stats.through_meet, hvalues, hloses]
  · rw [hstats, Stats.met_meet hg, Stats.met_meet hg]
    omega
  · rw [hstats, Stats.met_meet hg, Stats.met_meet hg, hlost, htimeouts, haway, haway',
      Bool.toNat_false, Bool.toNat_true]
    omega

/-- An attempt breaks off, with the value that it took off the stack, if it took one. -/
theorem breakOff (hstats : w'.stack.stats = w.stack.stats)
    (hvalues : w'.stack.stack.values.length + c'.loses.toNat = w.stack.stack.values.length)
    (hjoined : ∀ k, w'.joined k = w.joined k) (hmoved : ∀ k, c'.moved k = c.moved k)
    (hloses : c.loses = false) (haway : c'.away = c.away) : w.Tallies c w' c' := by
  refine ⟨fun k => ?_, ?_, ?_, ?_⟩
  · rw [hstats, hmoved]
  · rw [hstats, hloses, Bool.toNat_false]
    omega
  · rw [hstats, hjoined, hjoined]
  · rw [hstats, haway]

end Tallies

/-! ## Steps outside the slots -/

theorem not_leave_of_offer? (hp : c.point.offer? = some o) (outcome : Outcome α) :
    c.point ≠ .leave outcome := by
  intro h
  simp [h, Call.Point.offer?] at hp

theorem moved_of_offer? (hp : c.point.offer? = some o) (k : Kind) : c.moved k = false :=
  Call.moved_of_point (not_leave_of_offer? hp) k

theorem loses_of_offer? (hp : c.point.offer? = some o) : c.loses = false := by
  unfold Call.loses
  split
  · next h => simp [h, Call.Point.offer?] at hp
  · rfl

theorem suits_of_offer? (hp : c.point.offer? = some o) : c.Suits :=
  Call.suits_of_point (not_leave_of_offer? hp)

theorem stats_ownPolicy (w : World α) (t : Nat) :
    (w.ownPolicy t).2.2.stack.stats = w.stack.stats := by
  unfold ownPolicy
  split <;> rfl

theorem joined_congr (h : w'.stack.slots = w.stack.slots) (k : Kind) : w'.joined k = w.joined k := by
  rw [joined, joined, h]

namespace Counted

theorem enter (h : w.Counted begun) (hc : w.flights.find? t = some c) (hp : c.point = .enter o) :
    (w.enter t c o).Counted begun := by
  have hu := w.untouched_ownPolicy t
  have hoffer : c.point.offer? = some o := by rw [hp]; rfl
  unfold World.enter
  refine h.goOn hc hu.flights (returned_ownPolicy w t) rfl (suits_of_offer? (o := o) rfl)
    (.quiet (stats_ownPolicy w t) hu.values (joined_congr hu.slots) (fun k => ?_)
      (loses_of_offer? hoffer).symm ?_)
  · rw [moved_of_offer? hoffer]
    rfl
  · rw [Call.away, Call.away, hp]

theorem attemptPush (h : w.Counted begun) (hi : w.Inv g stages) (hc : w.flights.find? t = some c)
    {v : α} (hp : c.point = .attempt (some v))
    (hg : w.stack.stats.Grows (w.attemptPush t c v).stack.stats) :
    (w.attemptPush t c v).Counted begun := by
  have hoffer : c.point.offer? = some (some v) := by rw [hp]; rfl
  have haway : c.away = false := by rw [Call.away, hp]
  obtain ⟨hkind, -⟩ := (hc ▸ hi.agrees t).of_offer? hoffer
  obtain ⟨s', -, htry⟩ := hi.ready.tryPush v
  unfold World.attemptPush at hg ⊢
  rcases htry with ⟨htry, hvalues⟩ | ⟨htry, hvalues⟩
  · rw [htry] at hg ⊢
    dsimp only at hg ⊢
    refine h.goOn hc rfl rfl rfl ?_ (.pass (k := .push) rfl hg ?_ (fun _ => rfl)
      (moved_of_offer? hoffer) (fun k => ?_) (loses_of_offer? hoffer).symm haway rfl)
    · rintro outcome ⟨⟩
      rw [Call.goto, hkind]
      rfl
    · show s'.values.length + _ = _
      rw [hvalues]
      rfl
    · cases k <;> rfl
  · rw [htry] at hg ⊢
    dsimp only at hg ⊢
    refine h.goOn hc rfl rfl rfl (suits_of_offer? (o := some v) rfl)
      (.lose rfl hg hvalues (fun _ => rfl) (fun k => ?_) (loses_of_offer? hoffer).symm haway rfl)
    rw [moved_of_offer? hoffer]
    rfl

theorem attemptPop (h : w.Counted begun) (hi : w.Inv g stages) (hc : w.flights.find? t = some c)
    (hp : c.point = .attempt none) (hg : w.stack.stats.Grows (w.attemptPop t c).stack.stats) :
    (w.attemptPop t c).Counted begun := by
  have hoffer : c.point.offer? = some none := by rw [hp]; rfl
  have haway : c.away = false := by rw [Call.away, hp]
  obtain ⟨hkind, -⟩ := (hc ▸ hi.agrees t).of_offer? hoffer
  unfold World.attemptPop at hg ⊢
  cases hcont : w.stack.stack.contended with
  | true =>
    rw [hcont, if_pos rfl] at hg
    rw [if_pos rfl]
    refine h.goOn hc rfl rfl rfl (suits_of_offer? (o := none) rfl)
      (.lose rfl hg rfl (fun _ => rfl) (fun k => ?_) (loses_of_offer? hoffer).symm haway rfl)
    rw [moved_of_offer? hoffer]
    rfl
  | false =>
    obtain ⟨answer, s', htry, -, hcells, -, hanswer⟩ :=
      hi.ready.tryPop hcont (w.threads.identify t).1 w.wall
    rw [hcont, if_neg (by simp)] at hg
    rw [if_neg (by simp)]
    dsimp only at hg ⊢
    rw [htry] at hg ⊢
    have hvalues : s'.values = (TreiberStack.popCells w.stack.stack.cells).2.map (·.value) := by
      rw [TreiberStack.values, hcells]
    have hbefore : w.stack.stack.values = w.stack.stack.cells.map (·.value) := rfl
    have hmoves : ∀ k, c.moved k = false := moved_of_offer? hoffer
    cases hw : w.stack.stack.cells with
    | nil =>
      rw [hw] at hvalues hbefore hanswer
      have hsame : s'.values = w.stack.stack.values := hvalues.trans hbefore.symm
      rcases hanswer with rfl | rfl
      · dsimp only [TreiberStack.popCells] at hg ⊢
        refine h.goOn hc rfl rfl rfl ?_ (.quiet rfl hsame (fun _ => rfl) (fun k => ?_)
          (loses_of_offer? hoffer).symm haway.symm)
        · rintro outcome ⟨⟩
          rw [Call.goto, hkind]
          rfl
        · rw [hmoves]
          cases k <;> rfl
      · dsimp only [TreiberStack.popCells, TryPop.value?] at hg ⊢
        exact h.goOn hc rfl rfl rfl (Call.suits_of_point (by simp [Call.goto]))
          (.quiet rfl hsame (fun _ => rfl) (fun k => (hmoves k).symm)
            (loses_of_offer? hoffer).symm haway.symm)
    | cons cell cells =>
      rw [hw] at hvalues hbefore hanswer
      have hone : s'.values.length + 1 = w.stack.stack.values.length := by
        rw [hvalues, hbefore]
        rfl
      rcases hanswer with rfl | rfl
      · dsimp only [TreiberStack.popCells] at hg ⊢
        refine h.goOn hc rfl rfl rfl ?_ (.pass (k := .pop) rfl hg hone (fun _ => rfl) hmoves
          (fun k => ?_) (loses_of_offer? hoffer).symm haway rfl)
        · rintro outcome ⟨⟩
          rw [Call.goto, hkind]
          rfl
        · cases k <;> rfl
      · -- the value is off the stack, and counted nowhere but with the call
        dsimp only [TreiberStack.popCells, TryPop.value?] at hg ⊢
        exact h.goOn hc rfl rfl rfl (Call.suits_of_point (by simp [Call.goto]))
          (.breakOff rfl hone (fun _ => rfl) (fun k => (hmoves k).symm) (loses_of_offer? hoffer)
            haway.symm)

end Counted

/-! ## Steps in the slots -/

/-- A change of one slot changes how many have been joined by that one. -/
theorem joined_putSlot (hi : w.Inv g stages) (hplace : place < w.stack.slots.length) {stage : Stage α}
    {parties : Parties α} (hs : s'.Inv stage parties)
    (hslots : w'.stack.slots = w.stack.slots.set place s') (k : Kind) :
    w'.joined k + ((stages place).joinedBy k).toNat = w.joined k + (stage.joinedBy k).toNat := by
  have h := countP_set_add hplace s' (·.joinedBy k)
  have hold : w.stack.slots[place].joinedBy k = (stages place).joinedBy k := by
    have := (hi.row.slot place hplace).joinedBy_eq k
    rwa [List.getD_eq_getElem _ _ hplace] at this
  rw [hold, hs.joinedBy_eq k] at h
  rw [joined, hslots]
  exact h

namespace Counted

theorem visit (h : w.Counted begun) (hi : w.Inv g stages) (hc : w.flights.find? t = some c)
    (hp : c.point = .visit o) (a? : Option Address) : (w.visit t c o a?).Counted begun := by
  have hoffer : c.point.offer? = some o := by rw [hp]; rfl
  unfold World.visit
  dsimp only
  generalize hq : drawnSlot (visitBound w.stack.capacity c.policy.range) (c.random.headD 0) = place
  have hplace : place < w.stack.slots.length := hq ▸ Inv.drawnSlot_lt hi.room ..
  refine h.goOn hc rfl rfl rfl (Call.suits_of_point (by simp)) (.quiet rfl rfl (fun k => ?_) (fun k => ?_)
    (loses_of_offer? hoffer).symm ?_)
  · have hset := countP_set_add hplace (Exchange.start w.clock w.stack.config.timeout o
      (a?.getD (w.stack.slot place).freeAddress) (w.stack.slot place)).2 (·.joinedBy k)
    have hword : (Exchange.start w.clock w.stack.config.timeout o
        (a?.getD (w.stack.slot place).freeAddress) (w.stack.slot place)).2.word =
        w.stack.slots[place].word := by
      rw [← List.getD_eq_getElem _ {} hplace]
      exact Slot.word_enclose ..
    have hsame : ∀ {s s' : Slot α}, s'.word = s.word → s'.joinedBy k = s.joinedBy k := by
      intro s s' hs
      rw [Slot.joinedBy, Slot.joinedBy, Slot.joiner, Slot.joiner, hs]
    rw [hsame hword] at hset
    exact Nat.add_right_cancel hset
  · rw [moved_of_offer? hoffer]
    rfl
  · rw [Call.away, Call.away, hp]

theorem giveUp (h : w.Counted begun) (hc : w.flights.find? t = some c) (hk : c.kind = Call.kindOf o)
    (hp : c.point = .meeting place x)
    (hjoined : ∀ k, joined { w with stack := w.stack.putSlot place s' } k = w.joined k)
    (hg : w.stack.stats.Grows
      (conclude { w with stack := w.stack.putSlot place s' } t c (.error ⟨o⟩)).stack.stats) :
    (conclude { w with stack := w.stack.putSlot place s' } t c (.error ⟨o⟩)).Counted begun := by
  have hmoved : ∀ k, c.moved k = false := Call.moved_of_point (by simp [hp])
  rw [conclude_error_eq _ t hk] at hg ⊢
  exact h.goOn hc rfl rfl rfl (suits_of_offer? (o := o) rfl)
    (.giveUp rfl hg rfl hjoined (fun k => (hmoved k).symm) (by rw [Call.loses, Call.loses, hp])
      (by rw [Call.away, hp]) rfl)

theorem depart (h : w.Counted begun) (hc : w.flights.find? t = some c) (hk : c.kind = Call.kindOf o)
    (hp : c.point = .meeting place x) {theirs : Option α} (ho : theirs.isSome = !o.isSome)
    (hjoined :
      (∀ k, joined { w with stack := w.stack.putSlot place s' } k =
        w.joined k + (k == c.kind).toNat) ∨
      ∀ k, joined { w with stack := w.stack.putSlot place s' } k + (k != c.kind).toNat = w.joined k)
    (hg : w.stack.stats.Grows
      (conclude { w with stack := w.stack.putSlot place s' } t c (.ok theirs)).stack.stats) :
    (conclude { w with stack := w.stack.putSlot place s' } t c (.ok theirs)).Counted begun := by
  have hcon : ∀ w' : World α, w'.conclude t c (.ok theirs) =
      (w'.count (Stats.meet c.kind)).continueAs t
        { c with policy := c.policy.recordSuccess, point := .leave (.met theirs) } := by
    intro w'
    unfold World.conclude
    cases o with
    | none =>
      obtain ⟨v, rfl⟩ := Option.isSome_iff_exists.1 ho
      rw [hk]
      rfl
    | some v =>
      obtain rfl : theirs = none := by simpa using ho
      rw [hk]
      rfl
  have hmoves := hk ▸ Outcome.moves_met ho
  rw [hcon] at hg ⊢
  refine h.goOn hc rfl rfl rfl ?_ (.meet rfl hg rfl hjoined (Call.moved_of_point (by simp [hp])) hmoves
    (by rw [Call.loses, Call.loses, hp]) (by rw [Call.away, hp]) rfl)
  rintro outcome ⟨⟩
  exact Outcome.ends_of_moves (by simp [hmoves])

theorem meet (h : w.Counted begun) (hi : w.Inv g stages) (hc : w.flights.find? t = some c)
    (hp : c.point = .meeting place x) (hg : w.stack.stats.Grows (w.meet t c place x).stack.stats) :
    (w.meet t c place x).Counted begun := by
  obtain ⟨o, hkind, hoff, -⟩ := (hc ▸ hi.agrees t).of_meeting hp
  have hvisit := Inv.visits_of_meeting hc hp hoff
  have hplace := hi.row.inside t _ _ hvisit
  have hslot := hi.row.slot place hplace
  have ht := Visits.callers_eq_some.2 hvisit
  unfold World.meet at hg ⊢
  cases hx : x.step w.clock (w.stack.slot place) with | mk x' s' => ?_
  obtain ⟨taken, stage', hmove, hrow, -⟩ := hi.row.step hvisit w.clock hx
  rw [hx] at hg
  dsimp only at hg ⊢
  have hnew : ∃ parties, s'.Inv stage' parties := by
    have := hrow.slot place (by simpa using hplace)
    rw [List.getD_eq_getElem _ _ (by simpa using hplace), List.getElem_set_self,
      Function.update_self] at this
    exact ⟨_, this⟩
  obtain ⟨_, hnew⟩ := hnew
  have hjoined : ∀ k, joined { w with stack := w.stack.putSlot place s' } k +
      ((stages place).joinedBy k).toNat = w.joined k + (stage'.joinedBy k).toNat :=
    joined_putSlot hi hplace hnew rfl
  have hsame : (∀ k, stage'.joinedBy k = (stages place).joinedBy k) →
      ∀ k, joined { w with stack := w.stack.putSlot place s' } k = w.joined k := by
    intro hs k
    have := hjoined k
    rw [hs k] at this
    exact Nat.add_right_cancel this
  have hnone : x'.over = false → x'.answer? = none := fun h => by simpa [Exchange.over] using h
  have hgo : x'.over = false → (∀ k, stage'.joinedBy k = (stages place).joinedBy k) →
      (World.continueAs { w with stack := w.stack.putSlot place s' } t
        (c.goto (.meeting place x'))).Counted begun := by
    intro hover hs
    have hmoved : ∀ k, c.moved k = false := Call.moved_of_point (by simp [hp])
    refine h.goOn hc rfl rfl rfl (Call.suits_of_point (by simp [Call.goto]))
      (.quiet rfl rfl (hsame hs) (fun k => ?_) (by rw [Call.loses, Call.loses, hp]; rfl) ?_)
    · rw [hmoved]
      rfl
    · rw [Call.away, Call.away, hp]
      rfl
  generalize hst : stages place = stage at hmove hjoined hsame hgo
  cases hmove with
  | goOn hover =>
    rw [hnone hover]
    exact hgo hover fun _ => rfl
  | claim hover =>
    rw [hnone hover]
    exact hgo hover fun _ => rfl
  | expire _ ha =>
    rw [ha] at hg ⊢
    exact h.giveUp hc hkind hp (hsame fun _ => rfl) hg
  | withdraw ha =>
    rw [ha] at hg ⊢
    exact h.giveUp hc hkind hp (hsame fun _ => rfl) hg
  | @join _ u p _ _ hk ha =>
    rw [ha] at hg ⊢
    refine h.depart hc hkind hp hk (.inl fun k => ?_) hg
    rw [hkind, Bool.beq_comm]
    exact hjoined k
  | @clear _ theirs ha =>
    rw [ha] at hg ⊢
    have hk : taken.isSome = !o.isSome := by
      rw [hst] at hslot
      obtain ⟨p, a, hpt, -, -, hk⟩ := hslot.writes
      cases ht.symm.trans hpt
      simp [hk]
    refine h.depart hc hkind hp hk (.inr fun k => ?_) hg
    rw [hkind, ← Call.kindOf_beq_of_isSome hk]
    exact hjoined k

/-! ## Beginning and end -/

theorem new (c : Config) (threads : Threads) (clock : Nat) (wall : Int64) :
    ({ stack := .ofConfig c, threads, clock, wall } : World α).Counted fun _ => 0 where
  ordered := List.Pairwise.nil
  suits _ _ h := nomatch h
  begun _ := rfl
  moved k := by cases k <;> rfl
  nodes := rfl
  pairs := by
    have hjoined : ∀ k, joined ({ stack := .ofConfig c, threads, clock, wall } : World α) k = 0 := by
      intro k
      refine List.countP_eq_zero.2 fun s hs => ?_
      rw [List.eq_of_mem_replicate hs]
      simp [Slot.joinedBy, Word.state, Word.empty, SlotState.ofCode]
    rw [hjoined, hjoined]
    rfl
  lost := rfl

theorem begin (h : w.Counted begun) (ht : w.flights.find? t = none) (hp : c.point.offer? = some o)
    (haway : c.away = false) : (w.continueAs t c).Counted fun k => begun k + (c.kind == k).toNat := by
  have hfly : ∀ q : Call α → Bool, (w.continueAs t c).flying q = w.flying q + (q c).toNat := by
    intro q
    have := Flights.countP_insertInto h.ordered (t := t) c q
    have hlookup : w.flights.entries.lookup t = none := ht
    rw [hlookup] at this
    exact this
  have hended : ∀ q : Outcome α → Bool, (w.continueAs t c).ended q = w.ended q := fun _ => rfl
  have hmoved := moved_of_offer? hp
  refine ⟨Flights.pairwise_insertInto h.ordered c, fun u d hu => ?_, fun k => ?_, fun k => ?_, ?_,
    h.pairs, ?_⟩
  · rw [find?_continueAs] at hu
    split at hu
    · cases hu
      exact suits_of_offer? hp
    · exact h.suits u d hu
  · have hb := h.begun k
    rw [hended, hfly]
    omega
  · rw [hended, hfly, hmoved]
    exact h.moved k
  · rw [hfly, loses_of_offer? hp]
    exact h.nodes
  · rw [hfly, haway]
    exact h.lost

theorem leave (h : w.Counted begun) (hc : w.flights.find? t = some c) {outcome : Outcome α}
    (hp : c.point = .leave outcome) : (w.leave t c outcome).Counted begun := by
  have hfly : ∀ q : Call α → Bool,
      (w.leave t c outcome).flying q + (q c).toNat = w.flying q := by
    intro q
    have := Flights.countP_filter_ne h.ordered (t := t) q
    have hlookup : w.flights.entries.lookup t = some c := hc
    rw [hlookup] at this
    exact this
  have hended : ∀ q : Outcome α → Bool,
      (w.leave t c outcome).ended q = w.ended q + (q outcome).toNat := by
    intro q
    show List.countP _ (_ :: _) = _
    rw [List.countP_cons]
    cases q outcome <;> simp [ended]
  have hstats : (w.leave t c outcome).stack.stats = w.stack.stats := rfl
  have haway : c.away = false := by rw [Call.away, hp]
  have hloses : c.loses = false := by rw [Call.loses, hp]
  refine ⟨List.Pairwise.filter _ h.ordered, fun u d hu => ?_, fun k => ?_, fun k => ?_, ?_, h.pairs, ?_⟩
  · have hfind : (w.leave t c outcome).flights.find? u = if u = t then none else w.flights.find? u :=
      Flights.find?_erase ..
    rw [hfind] at hu
    split at hu
    · cases hu
    · exact h.suits u d hu
  · have hb := h.begun k
    have hf := hfly (·.kind == k)
    rw [hended, Outcome.ends_eq (h.suits t c hc outcome hp)]
    omega
  · have hm := h.moved k
    have hf := hfly (·.moved k)
    have hmoved : c.moved k = outcome.moves k := by rw [Call.moved, hp]
    rw [hmoved] at hf
    rw [hstats, hended]
    omega
  · have hn := h.nodes
    have hf := hfly Call.loses
    rw [hloses, Bool.toNat_false] at hf
    rw [← hf] at hn
    exact hn
  · have hl := h.lost
    have hf := hfly Call.away
    rw [haway, Bool.toNat_false] at hf
    rw [hstats]
    omega

end Counted

/-! ## Runs -/

/-- Whether callers see a call of a kind begin. -/
def begins (k : Kind) : Lifo.Label α → Bool
  | .call _ offer => Call.kindOf offer == k
  | _ => false

/-- No counter wraps around. -/
def Unwrapped (w : World α) : List (Event α) → Prop
  | [] => True
  | e :: events => w.stack.stats.Grows (w.happen e).stack.stats ∧ (w.happen e).Unwrapped events

instance decidableUnwrapped (w : World α) (events : List (Event α)) :
    Decidable (w.Unwrapped events) :=
  match events with
  | [] => inferInstanceAs (Decidable True)
  | e :: events =>
    have := decidableUnwrapped (w.happen e) events
    inferInstanceAs (Decidable (_ ∧ _))

/-- In the midst of a call nobody sees one begin. -/
theorem begins_effect (w w' : World α) (t : Nat) (k : Kind) :
    (w.effect t w').toList.countP (begins k) = 0 := by
  unfold effect
  split
  · rfl
  · next c _ =>
    split
    · rfl
    · rfl
    · split <;> rfl
    · split <;> rfl
    · split
      · cases Row.waiter? w.flights.threads w.visit? _ with
        | none => rfl
        | some u => cases c.kind <;> rfl
      · rfl
    · rfl
    · rfl

namespace Counted

theorem stepAt (h : w.Counted begun) (hi : w.Inv g stages) (t : Nat) (a? : Option Address)
    (hg : w.stack.stats.Grows (w.stepAt a? t).stack.stats) : (w.stepAt a? t).Counted begun := by
  unfold World.stepAt at hg ⊢
  cases hc : w.flights.find? t with
  | none => exact h
  | some c =>
    rw [hc] at hg
    dsimp only at hg ⊢
    cases hp : c.point with
    | enter o => exact h.enter hc hp
    | attempt o? =>
      rw [hp] at hg
      cases o? with
      | some v => exact h.attemptPush hi hc hp hg
      | none => exact h.attemptPop hi hc hp hg
    | visit o => exact h.visit hi hc hp a?
    | meeting place x =>
      rw [hp] at hg
      exact h.meet hi hc hp hg
    | leave outcome => exact h.leave hc hp
    | stuck why lost? => exact h

theorem stepped (h : w'.Counted begun) (w : World α) (t : Nat) :
    w'.Counted fun k => begun k + (w.effect t w').toList.countP (begins k) := by
  have hsame : (fun k => begun k + (w.effect t w').toList.countP (begins k)) = begun := by
    funext k
    rw [begins_effect, Nat.add_zero]
  rwa [hsame]

theorem happen (h : w.Counted begun) (hi : w.Inv g stages) (e : Event α)
    (hg : w.stack.stats.Grows (w.happen e).stack.stats) :
    (w.happen e).Counted fun k => begun k + (w.label? e).toList.countP (begins k) := by
  have starts : ∀ t o (c : Call α), c.kind = Call.kindOf o → c.point.offer? = some o →
      c.away = false → (if w.busy t then w else w.continueAs t c).Counted fun k => begun k +
        (if w.busy t then none else some (Lifo.Label.call t o)).toList.countP (begins k) := by
    intro t o c hk hp haway
    cases ht : w.flights.find? t with
    | some c' =>
      have hb : w.busy t = true := by simp [busy, ht]
      simp only [if_pos hb]
      exact h
    | none =>
      have hb : ¬ w.busy t = true := by simp [busy, ht]
      have hone : ∀ k, (some (Lifo.Label.call t o)).toList.countP (begins k) = (c.kind == k).toNat := by
        intro k
        rw [hk]
        cases hko : Call.kindOf o == k <;> simp [begins, hko]
      simp only [if_neg hb, hone]
      exact h.begin ht hp haway
  cases e with
  | start t o random => exact starts t o (.own w.stack.rangePolicy o random) rfl rfl rfl
  | startWith t policy o random => exact starts t o (.withPolicy policy o random) rfl rfl rfl
  | step t => exact (h.stepAt hi t none hg).stepped w t
  | stepAt t a =>
    have hlabel : w.label? (.stepAt t a) =
        if w.Vacant a then w.effect t (w.happen (.stepAt t a)) else none := rfl
    have hw : w.happen (.stepAt t a) = if w.Vacant a then w.stepAt (some a) t else w := rfl
    rw [hw] at hg hlabel ⊢
    rw [hlabel]
    by_cases hv : w.Vacant a
    · simp only [if_pos hv] at hg ⊢
      exact (h.stepAt hi t (some a) hg).stepped w t
    · simp only [if_neg hv]
      exact h
  | advance _ | wall _ | contend _ | beginExit _ | finishExit _ =>
    exact ⟨h.ordered, h.suits, h.begun, h.moved, h.nodes, h.pairs, h.lost⟩

theorem after (h : w.Counted begun) (hi : w.Inv g stages) (events : List (Event α))
    (hu : w.Unwrapped events) :
    (w.after events).Counted fun k => begun k + (w.trace events).countP (begins k) := by
  induction events generalizing w g stages begun with
  | nil => exact h
  | cons e events ih =>
    obtain ⟨hg, hu⟩ := hu
    obtain ⟨g', stages', -, hi'⟩ := hi.happen e
    have hrest := ih (h.happen hi e hg) hi' hu
    have hsum : (fun k => begun k + (w.label? e).toList.countP (begins k) +
        ((w.happen e).trace events).countP (begins k)) =
        fun k => begun k + (w.trace (e :: events)).countP (begins k) := by
      funext k
      rw [trace, List.countP_append, Nat.add_assoc]
    exact hsum ▸ hrest

end Counted

/-- The counters of a world in which no call is under way, when callers have seen so much. -/
structure Balanced (w : World α) (seen : List (Lifo.Label α)) : Prop where
  /-- Pushes went through the stack or met a pop, -/
  pushes : w.stack.stats.stackPushes.toNat + w.stack.stats.eliminatedPushes.toNat =
    w.ended (·.moves .push)
  /-- and none that was begun has ended otherwise. -/
  pushed : w.ended (·.moves .push) = seen.countP (begins .push)
  /-- Pops that returned a value went through the stack or met a push, -/
  pops : w.stack.stats.stackPops.toNat + w.stack.stats.eliminatedPops.toNat = w.ended (·.moves .pop)
  /-- and those that returned none found the stack empty. -/
  popped : w.ended (·.ends .pop) = seen.countP (begins .pop)
  /-- As many pushes have met a pop as pops a push. -/
  pairs : w.stack.stats.eliminatedPushes = w.stack.stats.eliminatedPops
  /-- The nodes of the stack are those that were pushed through it and not popped off it. -/
  nodes : w.stack.stats.stackPushes.toNat =
    w.stack.stats.stackPops.toNat + w.stack.stack.cells.length
  /-- After every lost attempt the call has met a partner, or run out of time. -/
  lost : w.stack.stats.lostAttempts.toNat = w.stack.stats.exchangeTimeouts.toNat +
    w.stack.stats.eliminatedPushes.toNat + w.stack.stats.eliminatedPops.toNat

end World

end BackoffStack
