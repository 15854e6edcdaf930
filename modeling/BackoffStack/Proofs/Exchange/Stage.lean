/-
Who is in a slot, and what a step of one call does there.

A slot is vacant, or one call waits in it, or that call has been joined and the slot carries its
partner's offer. `Slot.Inv` ties this stage to the word, to the program points of all calls and to
the envelopes they own. One step of one call moves the stage in one of a few ways, and tells whose
offer the call comes back with (`Slot.Inv.step`): that is all a slot can do, whatever other calls
are under way and wherever their envelopes lie.
-/
import BackoffStack.Proofs.Exchange.Envelopes

namespace BackoffStack

variable {α : Type}

/-- A call in flight: what it offers, and how far it has come. -/
structure Party (α : Type) where
  offer : Option α
  exchange : Exchange α

/-- Calls in flight by number. -/
abbrev Parties (α : Type) := Nat → Option (Party α)

/-- Who is in a slot. -/
inductive Stage (α : Type) where
  /-- Nobody. -/
  | vacant
  /-- One call, which waits. -/
  | waiting (t : Nat)
  /-- One call, which has been joined by an offer of the other kind. -/
  | joined (t : Nat) (theirs : Option α)

namespace Stage

/-- The call in the slot. -/
def occupant? : Stage α → Option Nat
  | vacant => none
  | waiting t => some t
  | joined t _ => some t

/-- Whether a call has been joined. -/
def Met (stage : Stage α) (t : Nat) : Prop := ∃ theirs, stage = joined t theirs

/-- What the word of a slot says of its stage. -/
def Writes (parties : Parties α) : Stage α → Word → Prop
  | vacant, w => w = Word.empty
  | waiting t, w => ∃ p, parties t = some p ∧ w = Word.compose p.exchange.mine .waiting
  | joined t theirs, w =>
    ∃ p a, parties t = some p ∧ w = Word.compose a .busy ∧ 4 ∣ a ∧
      p.offer.isSome = !theirs.isSome

/-- Who owns which offer: each call its own until it has been joined, and the slot the joiner's. -/
inductive Owns (stage : Stage α) (parties : Parties α) (w : Word) : Slot.Ownership α
  | caller {t p} : parties t = some p → ¬ stage.Met t →
      Owns stage parties w (some t) p.exchange.mine p.offer
  | slot {t theirs} : stage = joined t theirs → Owns stage parties w none w.address theirs

end Stage

/-- Whether a call is in the slot. -/
def Exchange.inside (x : Exchange α) : Bool :=
  match x.point with
  | .watch | .check | .withdraw | .clear _ => true
  | _ => false

/-- Whether a call is over. -/
def Exchange.over (x : Exchange α) : Bool := x.answer?.isSome

/-- Whether the next step of a call joins a waiter: the slot still holds the word that the call saw. -/
def Exchange.joins (x : Exchange α) (s : Slot α) : Bool :=
  match x.point with
  | .join seen => s.word == seen
  | _ => false

/-- What a call relies on at its program point. -/
def Party.At (p : Party α) (t : Nat) (stage : Stage α) (w : Word) : Prop :=
  match p.exchange.point with
  | .clock | .look | .watch | .check | .withdraw => True
  | .claim seen => seen = Word.empty
  | .join seen => ∃ a, 4 ∣ a ∧ seen = Word.compose a .waiting ∧ p.exchange.matchesOffer a = true
  | .clear a => 4 ∣ a ∧ stage.Met t ∧ w = Word.compose a .busy
  | .returned _ => False

/-- A slot at a stage, with all calls that are under way there. -/
structure Slot.Inv (s : Slot α) (stage : Stage α) (parties : Parties α) : Prop where
  keeps : s.Keeps (stage.Owns parties s.word)
  aligned : ∀ t p, parties t = some p → 4 ∣ p.exchange.mine
  writes : stage.Writes parties s.word
  occupant : ∀ t p, parties t = some p → (p.exchange.inside = true ↔ stage.occupant? = some t)
  points : ∀ t p, parties t = some p → p.At t stage s.word

/-- What one step of the call of `t`, which offers `o`, can do at a stage: how the call goes on, what
it takes out of an envelope, and the stage afterwards. -/
inductive Stage.Move (parties : Parties α) (t : Nat) (o : Option α) :
    Stage α → Exchange α → Option α → Stage α → Prop
  /-- The call goes on. -/
  | goOn {stage x} : x.over = false → Move parties t o stage x none stage
  /-- The call has begun to wait. -/
  | claim {x} : x.over = false → Move parties t o .vacant x none (.waiting t)
  /-- The call is out of time, outside the slot. -/
  | expire {stage x} : stage.occupant? ≠ some t → x.answer? = some (.error ⟨o⟩) →
      Move parties t o stage x o stage
  /-- The call is out of time, and leaves the slot. -/
  | withdraw {x} : x.answer? = some (.error ⟨o⟩) → Move parties t o (.waiting t) x o .vacant
  /-- The call joins one that waits and makes the other kind of offer. -/
  | join {x u p} : u ≠ t → parties u = some p → p.offer.isSome = !o.isSome →
      x.answer? = some (.ok p.offer) → Move parties t o (.waiting u) x p.offer (.joined u o)
  /-- The call leaves the slot with its partner's offer. -/
  | clear {x theirs} : x.answer? = some (.ok theirs) →
      Move parties t o (.joined t theirs) x theirs .vacant

/-- The calls after one of them took a step: it is under way no longer if it is over. -/
def Parties.advance (parties : Parties α) (t : Nat) (o : Option α) (x : Exchange α) : Parties α :=
  Function.update parties t (if x.over then none else some ⟨o, x⟩)

namespace Parties

variable {parties : Parties α} {t u : Nat} {o : Option α} {x : Exchange α}

theorem advance_of_over (h : x.over = true) :
    parties.advance t o x = Function.update parties t none := by
  rw [advance, if_pos h]

theorem advance_of_not_over (h : x.over = false) :
    parties.advance t o x = Function.update parties t (some ⟨o, x⟩) := by
  rw [advance, if_neg (by simp [h])]

theorem eq_some_of_update {p q : Party α} (h : Function.update parties t (some q) u = some p) :
    (u = t ∧ p = q) ∨ (u ≠ t ∧ parties u = some p) := by
  by_cases hu : u = t
  · subst hu
    rw [Function.update_self] at h
    exact .inl ⟨rfl, (Option.some.inj h).symm⟩
  · rw [Function.update_of_ne hu] at h
    exact .inr ⟨hu, h⟩

theorem eq_some_of_update_none {p : Party α} (h : Function.update parties t none u = some p) :
    u ≠ t ∧ parties u = some p := by
  by_cases hu : u = t
  · subst hu
    simp at h
  · rw [Function.update_of_ne hu] at h
    exact ⟨hu, h⟩

end Parties

namespace Stage

variable {parties parties' : Parties α} {stage : Stage α} {w : Word} {t : Nat}

/-- The word says the same as long as the call in the slot makes the same offer at the same
address. -/
theorem Writes.congr (h : stage.Writes parties w)
    (hp : ∀ u p, stage.occupant? = some u → parties u = some p →
      ∃ p', parties' u = some p' ∧ p'.exchange.mine = p.exchange.mine ∧ p'.offer = p.offer) :
    stage.Writes parties' w := by
  cases stage with
  | vacant => exact h
  | waiting u =>
    obtain ⟨p, hu, hw⟩ := h
    obtain ⟨p', hu', hm, -⟩ := hp u p rfl hu
    exact ⟨p', hu', hm ▸ hw⟩
  | joined u theirs =>
    obtain ⟨p, a, hu, hw, ha, hk⟩ := h
    obtain ⟨p', hu', -, ho⟩ := hp u p rfl hu
    exact ⟨p', a, hu', hw, ha, ho ▸ hk⟩

theorem Met.occupant (h : stage.Met t) : stage.occupant? = some t := by
  obtain ⟨theirs, rfl⟩ := h
  rfl

theorem not_met_waiting {u : Nat} : ¬ (waiting u : Stage α).Met t := by
  rintro ⟨_, h⟩
  cases h

/-- A call that is under way no longer owns nothing. -/
theorem Owns.ne_of_update {k : Option Nat} {a : Address} {o : Option α}
    (h : stage.Owns (Function.update parties t none) w k a o) : k ≠ some t := by
  cases h with
  | caller hu _ => simpa using (Parties.eq_some_of_update_none hu).1
  | slot _ => simp

theorem not_met_vacant : ¬ (vacant : Stage α).Met t := by
  rintro ⟨_, h⟩
  cases h

theorem Writes.eq_vacant (h : stage.Writes parties Word.empty)
    (ha : ∀ t p, parties t = some p → 4 ∣ p.exchange.mine) : stage = vacant := by
  cases stage with
  | vacant => rfl
  | waiting t =>
    obtain ⟨p, ht, hw⟩ := h
    exact absurd hw.symm (Word.compose_waiting_ne_empty (ha t p ht))
  | joined t theirs =>
    obtain ⟨p, a, -, hw, h4, -⟩ := h
    exact absurd hw.symm (Word.compose_busy_ne_empty h4)

theorem Writes.eq_waiting {a : Address} (h : stage.Writes parties (Word.compose a .waiting))
    (h4 : 4 ∣ a) (ha : ∀ t p, parties t = some p → 4 ∣ p.exchange.mine) :
    ∃ t p, stage = waiting t ∧ parties t = some p ∧ p.exchange.mine = a := by
  cases stage with
  | vacant => exact absurd h (Word.compose_waiting_ne_empty h4)
  | waiting t =>
    obtain ⟨p, ht, hw⟩ := h
    exact ⟨t, p, rfl, ht, Word.compose_inj (ha t p ht) h4 hw.symm⟩
  | joined t theirs =>
    obtain ⟨p, b, -, hw, hb, -⟩ := h
    exact absurd hw.symm (Word.compose_busy_ne_waiting hb h4)

theorem Writes.state (h : stage.Writes parties w)
    (ha : ∀ t p, parties t = some p → 4 ∣ p.exchange.mine) :
    w.state = match stage with
      | vacant => .empty
      | waiting _ => .waiting
      | joined _ _ => .busy := by
  cases stage with
  | vacant => exact h ▸ rfl
  | waiting t =>
    obtain ⟨p, ht, rfl⟩ := h
    exact Word.state_compose _ _ (ha t p ht)
  | joined t theirs =>
    obtain ⟨p, a, -, rfl, h4, -⟩ := h
    exact Word.state_compose _ _ h4

end Stage

/-- Only a call that has been joined relies on the word. -/
theorem Party.At.of_not_met {p : Party α} {t : Nat} {stage stage' : Stage α} {w w' : Word}
    (h : p.At t stage w) (hm : ¬ stage.Met t) : p.At t stage' w' := by
  unfold Party.At at h ⊢
  split at h
  case h_8 a heq => exact absurd h.2.1 hm
  all_goals simp_all

namespace Slot.Inv

variable {s : Slot α} {stage : Stage α} {parties : Parties α} {t : Nat} {o : Option α}
  {x : Exchange α}

/-- A call that has not been joined finds its offer at its address. -/
theorem holds (h : s.Inv stage parties) (ht : parties t = some ⟨o, x⟩) (hm : ¬ stage.Met t) :
    s.Holds x.mine o :=
  h.keeps.holds _ _ _ (.caller ht hm)

theorem goto (h : s.Inv stage parties) (ht : parties t = some ⟨o, x⟩) (p : Exchange.Point α)
    (hover : (x.goto p).over = false) (hin : (x.goto p).inside = x.inside)
    (hat : (⟨o, x.goto p⟩ : Party α).At t stage s.word) :
    s.Inv stage (parties.advance t o (x.goto p)) := by
  rw [Parties.advance_of_not_over hover]
  refine ⟨h.keeps.mono ?_, ?_, ?_, ?_, ?_⟩
  · rintro k a o' (⟨hu, hm⟩ | hs)
    · obtain ⟨rfl, rfl⟩ | ⟨-, hu⟩ := Parties.eq_some_of_update hu
      · exact Stage.Owns.caller (p := ⟨o, x⟩) ht hm
      · exact .caller hu hm
    · exact .slot hs
  · intro u q hu
    obtain ⟨rfl, rfl⟩ | ⟨-, hu⟩ := Parties.eq_some_of_update hu
    · exact h.aligned u ⟨o, x⟩ ht
    · exact h.aligned u q hu
  · refine h.writes.congr fun u q _ hu => ?_
    by_cases hut : u = t
    · subst hut
      cases ht.symm.trans hu
      exact ⟨_, Function.update_self .., rfl, rfl⟩
    · exact ⟨q, by rw [Function.update_of_ne hut, hu], rfl, rfl⟩
  · intro u q hu
    obtain ⟨rfl, rfl⟩ | ⟨-, hu⟩ := Parties.eq_some_of_update hu
    · rw [← h.occupant u _ ht, hin]
    · exact h.occupant u q hu
  · intro u q hu
    obtain ⟨rfl, rfl⟩ | ⟨-, hu⟩ := Parties.eq_some_of_update hu
    · exact hat
    · exact h.points u q hu

theorem claim (h : s.Inv .vacant parties) (ht : parties t = some ⟨o, x⟩) :
    (s.setWord (Word.compose x.mine .waiting)).Inv (.waiting t)
      (parties.advance t o (x.goto .watch)) := by
  rw [Parties.advance_of_not_over rfl]
  refine ⟨(h.keeps.setWord _).mono ?_, ?_, ⟨_, Function.update_self .., rfl⟩, ?_, ?_⟩
  · rintro k a o' (⟨hu, -⟩ | hs)
    · obtain ⟨rfl, rfl⟩ | ⟨-, hu⟩ := Parties.eq_some_of_update hu
      · exact Stage.Owns.caller (p := ⟨o, x⟩) ht Stage.not_met_vacant
      · exact .caller hu Stage.not_met_vacant
    · cases hs
  · intro u q hu
    obtain ⟨rfl, rfl⟩ | ⟨-, hu⟩ := Parties.eq_some_of_update hu
    · exact h.aligned u ⟨o, x⟩ ht
    · exact h.aligned u q hu
  · intro u q hu
    obtain ⟨rfl, rfl⟩ | ⟨hut, hu⟩ := Parties.eq_some_of_update hu
    · simp [Stage.occupant?, Exchange.inside, Exchange.goto]
    · have := h.occupant u q hu
      simp_all [Stage.occupant?, Ne.symm hut]
  · intro u q hu
    obtain ⟨rfl, rfl⟩ | ⟨-, hu⟩ := Parties.eq_some_of_update hu
    · trivial
    · exact (h.points u q hu).of_not_met Stage.not_met_vacant

theorem expire (h : s.Inv stage parties) (ht : parties t = some ⟨o, x⟩)
    (ho : stage.occupant? ≠ some t) :
    (s.takeOut x.mine).2.Inv stage (Function.update parties t none) := by
  have hm : ¬ stage.Met t := fun hm => ho hm.occupant
  have keeps := h.keeps.takeOut (.caller ht hm)
  refine ⟨keeps.mono ?_, ?_, ?_, ?_, ?_⟩
  · rw [word_takeOut]
    intro k a o' hk
    refine ⟨hk.ne_of_update, ?_⟩
    obtain ⟨hu, hm'⟩ | hs := hk
    · exact .caller (Parties.eq_some_of_update_none hu).2 hm'
    · exact .slot hs
  · exact fun u q hu => h.aligned u q (Parties.eq_some_of_update_none hu).2
  · rw [word_takeOut]
    refine h.writes.congr fun u q hocc hu => ⟨q, ?_, rfl, rfl⟩
    rw [Function.update_of_ne (by rintro rfl; exact ho hocc), hu]
  · exact fun u q hu => h.occupant u q (Parties.eq_some_of_update_none hu).2
  · rw [word_takeOut]
    exact fun u q hu => h.points u q (Parties.eq_some_of_update_none hu).2

theorem withdraw (h : s.Inv (.waiting t) parties) (ht : parties t = some ⟨o, x⟩) :
    ((s.setWord Word.empty).takeOut x.mine).2.Inv .vacant (Function.update parties t none) := by
  have keeps := (h.keeps.setWord Word.empty).takeOut
    (.caller ht Stage.not_met_waiting)
  refine ⟨keeps.mono ?_, ?_, word_takeOut .., ?_, ?_⟩
  · intro k a o' hk
    refine ⟨hk.ne_of_update, ?_⟩
    obtain ⟨hu, -⟩ | hs := hk
    · exact .caller (Parties.eq_some_of_update_none hu).2 Stage.not_met_waiting
    · cases hs
  · exact fun u q hu => h.aligned u q (Parties.eq_some_of_update_none hu).2
  · intro u q hu
    obtain ⟨hut, hu⟩ := Parties.eq_some_of_update_none hu
    rw [h.occupant u q hu]
    simpa [Stage.occupant?] using hut.symm
  · intro u q hu
    exact (h.points u q (Parties.eq_some_of_update_none hu).2).of_not_met Stage.not_met_waiting

/-- A call joins another: it takes that one's offer, and leaves its own with the slot. -/
theorem join {u : Nat} {p : Party α} (h : s.Inv (.waiting u) parties)
    (ht : parties t = some ⟨o, x⟩) (hu : parties u = some p) (hut : u ≠ t)
    (hk : p.offer.isSome = !o.isSome) :
    ((s.setWord (Word.compose x.mine .busy)).takeOut p.exchange.mine).2.Inv (.joined u o)
      (Function.update parties t none) := by
  have haddr : (Word.compose x.mine .busy).address = x.mine :=
    Word.address_compose _ _ (h.aligned t _ ht)
  have keeps := (h.keeps.setWord (Word.compose x.mine .busy)).takeOut
    (.caller hu Stage.not_met_waiting)
  refine ⟨keeps.rename (fun k => some (k.getD t)) ?_ ?_, ?_, ?_, ?_, ?_⟩
  · rw [word_takeOut]
    rintro k a o' (⟨hv, hm⟩ | hs)
    · obtain ⟨-, hv⟩ := Parties.eq_some_of_update_none hv
      refine ⟨fun e => hm ?_, .caller hv Stage.not_met_waiting⟩
      cases e
      exact ⟨o, rfl⟩
    · cases hs
      show _ ∧ (Stage.waiting u).Owns parties s.word (some t) (Word.compose x.mine .busy).address o
      rw [haddr]
      exact ⟨by simpa using hut.symm, Stage.Owns.caller (p := ⟨o, x⟩) ht Stage.not_met_waiting⟩
  · intro k l a o₁ o₂ hk hl e
    have hkt := hk.ne_of_update
    have hlt := hl.ne_of_update
    cases k <;> cases l <;> simp_all
  · exact fun v q hv => h.aligned v q (Parties.eq_some_of_update_none hv).2
  · rw [word_takeOut]
    exact ⟨p, _, by rw [Function.update_of_ne hut, hu], rfl, h.aligned t _ ht, hk⟩
  · intro v q hv
    exact h.occupant v q (Parties.eq_some_of_update_none hv).2
  · intro v q hv
    exact (h.points v q (Parties.eq_some_of_update_none hv).2).of_not_met Stage.not_met_waiting

/-- A call leaves that has been joined, and takes its partner's offer. -/
theorem clear {a : Address} {theirs : Option α} (h : s.Inv (.joined t theirs) parties)
    (howns : (Stage.joined t theirs).Owns parties s.word none a theirs) :
    ((s.setWord Word.empty).takeOut a).2.Inv .vacant (Function.update parties t none) := by
  have keeps := (h.keeps.setWord Word.empty).takeOut howns
  refine ⟨keeps.mono ?_, ?_, word_takeOut .., ?_, ?_⟩
  · rintro k b o' (⟨hu, -⟩ | hs)
    · obtain ⟨hut, hu⟩ := Parties.eq_some_of_update_none hu
      refine ⟨by simp, .caller hu ?_⟩
      rintro ⟨_, e⟩
      cases e
      exact hut rfl
    · cases hs
  · exact fun u q hu => h.aligned u q (Parties.eq_some_of_update_none hu).2
  · intro u q hu
    obtain ⟨hut, hu⟩ := Parties.eq_some_of_update_none hu
    rw [h.occupant u q hu]
    simpa [Stage.occupant?] using hut.symm
  · intro u q hu
    obtain ⟨hut, hu⟩ := Parties.eq_some_of_update_none hu
    refine (h.points u q hu).of_not_met ?_
    rintro ⟨_, e⟩
    cases e
    exact hut rfl

/-! ## One step -/

/-- What a step of the call of `t` may come to: a move of the stage, after which everything is in order
again, and of the values in the envelopes only the one is missing that the call took out. -/
def Moves (s : Slot α) (stage : Stage α) (parties : Parties α) (t : Nat) (o : Option α)
    (r : Exchange α × Slot α) : Prop :=
  ∃ taken stage', stage.Move parties t o r.1 taken stage' ∧
    r.2.Inv stage' (parties.advance t o r.1) ∧
    (s.envelopes.map (·.2)).Perm (taken.toList ++ r.2.envelopes.map (·.2))

theorem moves_goto (h : s.Inv stage parties) (ht : parties t = some ⟨o, x⟩) (p : Exchange.Point α)
    (hover : (x.goto p).over = false) (hin : (x.goto p).inside = x.inside)
    (hat : (⟨o, x.goto p⟩ : Party α).At t stage s.word) :
    Moves s stage parties t o (x.goto p, s) :=
  ⟨none, stage, .goOn hover, h.goto ht p hover hin hat, List.Perm.refl _⟩

theorem moves_claim (h : s.Inv .vacant parties) (ht : parties t = some ⟨o, x⟩) :
    Moves s .vacant parties t o (x.goto .watch, s.setWord (Word.compose x.mine .waiting)) :=
  ⟨none, .waiting t, .claim rfl, h.claim ht, List.Perm.refl _⟩

/-- A call that gives up comes back with its own offer. -/
theorem moves_giveUp {s' : Slot α} {stage' : Stage α} (h : s.Inv stage parties)
    (ht : parties t = some ⟨o, x⟩) (hm : ¬ stage.Met t) (he : s'.envelopes = s.envelopes)
    (hmove : ∀ {x' : Exchange α}, x'.answer? = some (.error ⟨o⟩) →
      stage.Move parties t o x' o stage')
    (hinv : (s'.takeOut x.mine).2.Inv stage' (Function.update parties t none)) :
    Moves s stage parties t o (x.giveUp s') := by
  have hn : (s'.envelopes.map (·.1)).Nodup := he ▸ h.keeps.nodup
  have ho : s'.Holds x.mine o := by
    have := h.holds ht hm
    cases o with
    | none => exact this
    | some v => exact ⟨this.1, this.2.1, he ▸ this.2.2⟩
  refine ⟨o, stage', hmove ?_, ?_, he ▸ ho.values_takeOut hn⟩
  · show some (Except.error (Timeout.mk (s'.takeOut x.mine).1)) = _
    rw [ho.fst_takeOut hn]
  · rw [Parties.advance_of_over rfl]
    exact hinv

/-- A call that completes comes back with the offer that lies at the address it has got. -/
theorem moves_complete {s' : Slot α} {stage' : Stage α} {a : Address} {theirs : Option α}
    (hn : (s.envelopes.map (·.1)).Nodup) (ho : s.Holds a theirs) (he : s'.envelopes = s.envelopes)
    (hmove : ∀ {x' : Exchange α}, x'.answer? = some (.ok theirs) →
      stage.Move parties t o x' theirs stage')
    (hinv : (s'.takeOut a).2.Inv stage' (Function.update parties t none)) :
    Moves s stage parties t o (x.complete a s') := by
  have hn' : (s'.envelopes.map (·.1)).Nodup := he ▸ hn
  have ho' : s'.Holds a theirs := by
    cases theirs with
    | none => exact ho
    | some v => exact ⟨ho.1, ho.2.1, he ▸ ho.2.2⟩
  refine ⟨theirs, stage', hmove ?_, ?_, he ▸ ho'.values_takeOut hn'⟩
  · show some (Except.ok (s'.takeOut a).1) = _
    rw [ho'.fst_takeOut hn']
  · rw [Parties.advance_of_over rfl]
    exact hinv

/-- A waiter whose offer lies where a marker does not, or the other way round, makes the other kind of
offer. -/
theorem isSome_of_matchesOffer {u : Nat} {p : Party α} (h : s.Inv (.waiting u) parties)
    (ht : parties t = some ⟨o, x⟩) (hu : parties u = some p)
    (hmatch : x.matchesOffer p.exchange.mine = true) : p.offer.isSome = !o.isSome := by
  rw [Exchange.matchesOffer, (h.holds (x := p.exchange) hu Stage.not_met_waiting).beq_null,
    (h.holds ht Stage.not_met_waiting).beq_null] at hmatch
  revert hmatch
  cases p.offer.isSome <;> cases o.isSome <;> simp

theorem moves_look (h : s.Inv stage parties) (ht : parties t = some ⟨o, x⟩)
    (hx : x.point = .look) (now : Nat) : Moves s stage parties t o (x.step now s) := by
  have back : Moves s stage parties t o (x.goto .clock, s) :=
    h.moves_goto ht .clock rfl (by simp [Exchange.inside, Exchange.goto, hx]) trivial
  have hstate := h.writes.state h.aligned
  simp only [Exchange.step, hx]
  cases stage with
  | vacant =>
    rw [hstate]
    exact h.moves_goto ht (.claim _) rfl (by simp [Exchange.inside, Exchange.goto, hx]) h.writes
  | waiting u =>
    rw [hstate]
    obtain ⟨p, hu, hw⟩ := h.writes
    have h4 := h.aligned u p hu
    by_cases hm : x.matchesOffer s.word.address = true
    · simp only [hm, if_true]
      refine h.moves_goto ht (.join _) rfl (by simp [Exchange.inside, Exchange.goto, hx]) ?_
      refine ⟨p.exchange.mine, h4, hw, ?_⟩
      rwa [hw, Word.address_compose _ _ h4] at hm
    · simp only [hm]
      exact back
  | joined u theirs =>
    rw [hstate]
    exact back

theorem moves_join {seen : Word} (h : s.Inv stage parties) (ht : parties t = some ⟨o, x⟩)
    (hx : x.point = .join seen) (now : Nat) : Moves s stage parties t o (x.step now s) := by
  obtain ⟨a, h4, rfl, hmatch⟩ : ∃ a, 4 ∣ a ∧ seen = Word.compose a .waiting ∧
      x.matchesOffer a = true := by simpa [Party.At, hx] using h.points t _ ht
  simp only [Exchange.step, hx, compareAndSet?]
  by_cases hw : s.word = Word.compose a .waiting
  · -- the word is the one that was seen, whoever wrote it: its writer waits now
    obtain ⟨u, p, rfl, hu, rfl⟩ := (hw ▸ h.writes).eq_waiting h4 h.aligned
    have hut : u ≠ t := by
      rintro rfl
      simpa [Exchange.inside, hx] using (h.occupant u _ ht).2 rfl
    have hk := h.isSome_of_matchesOffer ht hu hmatch
    simp only [hw, if_true, Word.address_compose _ _ h4]
    exact moves_complete h.keeps.nodup (h.holds (x := p.exchange) hu Stage.not_met_waiting) rfl
      (.join hut hu hk) (h.join ht hu hut hk)
  · simp only [hw, if_false]
    exact h.moves_goto ht .clock rfl (by simp [Exchange.inside, Exchange.goto, hx]) trivial

theorem moves_watch (h : s.Inv stage parties) (ht : parties t = some ⟨o, x⟩)
    (hx : x.point = .watch) (now : Nat) : Moves s stage parties t o (x.step now s) := by
  have hocc : stage.occupant? = some t := (h.occupant t _ ht).1 (by simp [Exchange.inside, hx])
  have hstate := h.writes.state h.aligned
  have hin : ∀ p : Exchange.Point α, (x.goto p).inside = true → (x.goto p).inside = x.inside := by
    intro p hp
    rw [hp]
    simp [Exchange.inside, hx]
  simp only [Exchange.step, hx]
  cases stage with
  | vacant => cases hocc
  | waiting u =>
    rw [hstate]
    exact h.moves_goto ht .check rfl (hin _ rfl) trivial
  | joined u theirs =>
    cases hocc
    rw [hstate]
    obtain ⟨p, a, -, hw, h4, -⟩ := h.writes
    refine h.moves_goto ht (.clear _) rfl (hin _ rfl) ?_
    rw [hw, Word.address_compose _ _ h4]
    exact ⟨h4, ⟨theirs, rfl⟩, rfl⟩

theorem moves_withdraw (h : s.Inv stage parties) (ht : parties t = some ⟨o, x⟩)
    (hx : x.point = .withdraw) (now : Nat) : Moves s stage parties t o (x.step now s) := by
  have hocc : stage.occupant? = some t := (h.occupant t _ ht).1 (by simp [Exchange.inside, hx])
  simp only [Exchange.step, hx, compareAndSet?]
  by_cases hw : s.word = Word.compose x.mine .waiting
  · obtain ⟨u, p, rfl, -, -⟩ := (hw ▸ h.writes).eq_waiting (h.aligned t _ ht) h.aligned
    cases hocc
    simp only [hw, if_true]
    exact h.moves_giveUp ht Stage.not_met_waiting rfl .withdraw (h.withdraw ht)
  · simp only [hw, if_false]
    exact h.moves_goto ht .watch rfl (by simp [Exchange.inside, Exchange.goto, hx]) trivial

theorem moves_clear {a : Address} (h : s.Inv stage parties) (ht : parties t = some ⟨o, x⟩)
    (hx : x.point = .clear a) (now : Nat) : Moves s stage parties t o (x.step now s) := by
  obtain ⟨h4, ⟨theirs, rfl⟩, hw⟩ : 4 ∣ a ∧ stage.Met t ∧ s.word = Word.compose a .busy := by
    simpa [Party.At, hx] using h.points t _ ht
  have howns : (Stage.joined t theirs).Owns parties s.word none a theirs := by
    have hslot : (Stage.joined t theirs).Owns parties s.word none s.word.address theirs := .slot rfl
    rwa [show s.word.address = a by rw [hw, Word.address_compose _ _ h4]] at hslot
  simp only [Exchange.step, hx]
  exact moves_complete h.keeps.nodup (h.keeps.holds _ _ _ howns) rfl .clear (h.clear howns)

/-- Every access of a call to its slot, and every reading of the clock, is one of the moves. -/
theorem step (h : s.Inv stage parties) (ht : parties t = some ⟨o, x⟩) (now : Nat) :
    Moves s stage parties t o (x.step now s) := by
  have hout : x.inside = false → stage.occupant? ≠ some t := fun hi e => by
    simpa [hi] using (h.occupant t _ ht).2 e
  cases hx : x.point with
  | clock =>
    have hin : x.inside = false := by simp [Exchange.inside, hx]
    simp only [Exchange.step, hx]
    split
    · exact h.moves_giveUp ht (fun hm => hout hin hm.occupant) rfl (.expire (hout hin))
        (h.expire ht (hout hin))
    · exact h.moves_goto ht .look rfl hin.symm trivial
  | look => exact h.moves_look ht hx now
  | claim seen =>
    obtain rfl : seen = Word.empty := by simpa [Party.At, hx] using h.points t _ ht
    simp only [Exchange.step, hx, compareAndSet?]
    by_cases hw : s.word = Word.empty
    · simp only [hw, if_true]
      obtain rfl := (hw ▸ h.writes).eq_vacant h.aligned
      exact h.moves_claim ht
    · simp only [hw, if_false]
      exact h.moves_goto ht .clock rfl (by simp [Exchange.inside, Exchange.goto, hx]) trivial
  | join seen => exact h.moves_join ht hx now
  | watch => exact h.moves_watch ht hx now
  | check =>
    have hin : x.inside = true := by simp [Exchange.inside, hx]
    simp only [Exchange.step, hx]
    split
    · exact h.moves_goto ht .withdraw rfl hin.symm trivial
    · exact h.moves_goto ht .watch rfl hin.symm trivial
  | withdraw => exact h.moves_withdraw ht hx now
  | clear a => exact h.moves_clear ht hx now
  | returned answer => simpa [Party.At, hx] using h.points t _ ht

/-- A step that joins a waiter ends the call, with what its partner offered. -/
theorem answer_of_joins (hj : x.joins s = true) (now : Nat) :
    x.inside = false ∧ ∃ theirs, (x.step now s).1.answer? = some (.ok theirs) := by
  unfold Exchange.joins at hj
  split at hj
  · next seen hx =>
    have hw : s.word = seen := by simpa using hj
    refine ⟨by simp [Exchange.inside, hx], ?_⟩
    simp only [Exchange.step, hx, compareAndSet?, hw, if_true]
    exact ⟨_, rfl⟩
  · cases hj

/-- A call outside the slot completes only by joining. -/
theorem joins_of_answer {theirs : Option α} {now : Nat} (hx : x.over = false)
    (hin : x.inside = false) (ha : (x.step now s).1.answer? = some (.ok theirs)) :
    x.joins s = true := by
  cases hp : x.point with
  | join seen =>
    by_cases hw : s.word = seen
    · simp [Exchange.joins, hp, hw]
    · simp [Exchange.step, hp, compareAndSet?, hw, Exchange.answer?, Exchange.goto] at ha
  | clock =>
    simp only [Exchange.step, hp] at ha
    split at ha <;> simp [Exchange.answer?, Exchange.goto, Exchange.giveUp] at ha
  | look =>
    simp only [Exchange.step, hp] at ha
    repeat' split at ha
    all_goals simp [Exchange.answer?, Exchange.goto] at ha
  | claim seen =>
    simp only [Exchange.step, hp] at ha
    split at ha <;> simp [Exchange.answer?, Exchange.goto] at ha
  | watch | check | withdraw | clear a => simp [Exchange.inside, hp] at hin
  | returned answer => simp [Exchange.over, Exchange.answer?, hp] at hx

/-- A slot in which a call waits becomes joined at the steps that join, and at no others. -/
theorem joins_iff (h : s.Inv stage parties) (ht : parties t = some ⟨o, x⟩) {now : Nat}
    {x' : Exchange α} {s' : Slot α} (hx' : x.step now s = (x', s')) {taken : Option α}
    {stage' : Stage α} (hm : stage.Move parties t o x' taken stage') :
    x.joins s = true ↔ ∃ u, stage = .waiting u ∧ stage' = .joined u o := by
  have hocc : x.inside = true ↔ stage.occupant? = some t := h.occupant t _ ht
  have hx : x.over = false := by
    cases hp : x.point with
    | returned answer => simpa [Party.At, hp] using h.points t _ ht
    | _ => simp [Exchange.over, Exchange.answer?, hp]
  have no : (∀ theirs, x'.answer? ≠ some (.ok theirs)) → ¬ x.joins s = true := by
    intro hne hj
    obtain ⟨theirs, ha⟩ := (answer_of_joins hj now).2
    rw [hx'] at ha
    exact hne theirs ha
  cases hm with
  | goOn hover =>
    refine iff_of_false (no fun theirs e => by simp [Exchange.over, e] at hover) ?_
    rintro ⟨u, rfl, h⟩
    cases h
  | claim hover =>
    refine iff_of_false (no fun theirs e => by simp [Exchange.over, e] at hover) ?_
    rintro ⟨u, h, -⟩
    cases h
  | expire hout ha =>
    refine iff_of_false (no fun theirs e => by simp [ha] at e) ?_
    rintro ⟨u, rfl, h⟩
    cases h
  | withdraw ha =>
    refine iff_of_false (no fun theirs e => by simp [ha] at e) ?_
    rintro ⟨u, -, h⟩
    cases h
  | @join _ u p hut hu hk ha =>
    have hin : x.inside = false := by
      rw [← Bool.not_eq_true, hocc]
      simpa [Stage.occupant?] using hut
    exact iff_of_true (joins_of_answer hx hin (by rw [hx']; exact ha)) ⟨u, rfl, rfl⟩
  | clear ha =>
    have hin : x.inside = true := hocc.2 rfl
    refine iff_of_false (fun hj => by simp [(answer_of_joins hj now).1] at hin) ?_
    rintro ⟨u, h, -⟩
    cases h

/-! ## Beginning -/

theorem new : ({} : Slot α).Inv .vacant fun _ => none where
  keeps := ⟨List.nodup_nil, by rintro k a o (⟨⟨⟩, -⟩ | ⟨⟨⟩⟩), by rintro k l a o o' (⟨⟨⟩, -⟩ | ⟨⟨⟩⟩)⟩
  aligned t p ht := nomatch ht
  writes := rfl
  occupant t p ht := nomatch ht
  points t p ht := nomatch ht

theorem occupant_isSome (h : s.Inv stage parties) (ht : stage.occupant? = some t) :
    ∃ p, parties t = some p := by
  have hw := h.writes
  cases stage with
  | vacant => cases ht
  | waiting u =>
    cases ht
    obtain ⟨p, hp, -⟩ := hw
    exact ⟨p, hp⟩
  | joined u theirs =>
    cases ht
    obtain ⟨p, -, hp, -⟩ := hw
    exact ⟨p, hp⟩

/-- A call begins: its offer goes into an envelope of its own, and nobody notices. -/
theorem start {a : Address} (h : s.Inv stage parties) (ht : parties t = none) (ha : s.Usable a)
    (now : Nat) (timeout : Duration) (o : Option α) :
    (Exchange.start now timeout o a s).2.Inv stage
      (Function.update parties t (some ⟨o, (Exchange.start now timeout o a s).1⟩)) := by
  have hocc : stage.occupant? ≠ some t := by
    intro e
    obtain ⟨p, hp⟩ := h.occupant_isSome e
    simp [ht] at hp
  have hword : (Exchange.start now timeout o a s).2.word = s.word := word_enclose s a o
  have keeps := h.keeps.enclose ha (some t) o (by
    rintro b o' ⟨hu, -⟩
    simp [ht] at hu)
  refine ⟨keeps.mono ?_, ?_, ?_, ?_, ?_⟩
  · rw [hword]
    rintro k b o' (⟨hu, hm⟩ | hs)
    · obtain ⟨rfl, rfl⟩ | ⟨-, hu⟩ := Parties.eq_some_of_update hu
      · exact .inr ⟨rfl, rfl, rfl⟩
      · exact .inl (.caller hu hm)
    · exact .inl (.slot hs)
  · intro u q hu
    obtain ⟨rfl, rfl⟩ | ⟨-, hu⟩ := Parties.eq_some_of_update hu
    · exact (keeps.holds _ _ _ (.inr ⟨rfl, rfl, rfl⟩)).dvd
    · exact h.aligned u q hu
  · rw [hword]
    refine h.writes.congr fun u q hu hq => ⟨q, ?_, rfl, rfl⟩
    rw [Function.update_of_ne (by rintro rfl; exact hocc hu), hq]
  · intro u q hu
    obtain ⟨rfl, rfl⟩ | ⟨-, hu⟩ := Parties.eq_some_of_update hu
    · exact iff_of_false (by simp [Exchange.inside, Exchange.start]) hocc
    · exact h.occupant u q hu
  · rw [hword]
    intro u q hu
    obtain ⟨rfl, rfl⟩ | ⟨-, hu⟩ := Parties.eq_some_of_update hu
    · trivial
    · exact h.points u q hu

end Slot.Inv

end BackoffStack
