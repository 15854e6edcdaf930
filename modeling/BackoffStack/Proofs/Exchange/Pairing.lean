/-
Pushes and pops meet in pairs, and no value is lost.

Over every run, whatever the calls and the clock do and wherever new envelopes lie
(`History.pairing_and_conservation`): the pairs are disjoint and each is one push and one pop, which
return each other's offer; a call that is in no pair can only return its own; and the values offered
so far are those in the envelopes and those returned, each once.

The invariant takes each slot at its stage. A call that has been joined is in its slot and has its
partner in the history already; every other call in flight has none.
-/
import BackoffStack.Proofs.Exchange.History

namespace BackoffStack

variable {α : Type}

namespace Arena

namespace History

/-- The calls in flight, with their offers. -/
def visits (h : History α) : Visits α := fun t =>
  (h.arena.flights.find? t).bind fun v => (h.offer? t).map fun o => (v.place, ⟨o, v.exchange⟩)

/-- The answer of a call: its partner's offer if it has met one, else its own. -/
inductive Answers (h : History α) (t : Nat) : ExchangeAnswer α → Prop
  | own {o} : h.partner? t = none → h.offer? t = some o → Answers h t (.error ⟨o⟩)
  | met {u o} : h.partner? t = some u → h.offer? u = some o → Answers h t (.ok o)

/-- All slots at their stages, and the history to go with them. -/
structure Inv (h : History α) (stages : Nat → Stage α) : Prop where
  row : Row.Inv h.arena.slots stages h.visits
  known : ∀ t v, h.arena.flights.find? t = some v → ∃ o, h.offer? t = some o
  disjoint : (h.pairs.flatMap fun p => [p.1, p.2]).Nodup
  kinds : ∀ p ∈ h.pairs, ∃ v, h.offer? p.1 = some (some v) ∧ h.offer? p.2 = some none
  alone : ∀ t v, h.arena.flights.find? t = some v → ¬ (stages v.place).Met t →
    h.partner? t = none
  met : ∀ t v theirs, h.arena.flights.find? t = some v → stages v.place = .joined t theirs →
    ∃ u, h.partner? t = some u ∧ h.offer? u = some theirs ∧ h.arena.flights.find? u = none
  answered : ∀ t a, (t, a) ∈ h.arena.returned → h.arena.flights.find? t = none ∧ h.Answers t a
  settled : ∀ t o, h.offer? t = some o → h.arena.flights.find? t = none →
    ∃ a, (t, a) ∈ h.arena.returned
  once : (h.arena.returned.map (·.1)).Nodup
  kept : (h.offers.flatMap (·.2.toList)).Perm
    (Row.values h.arena.slots ++ h.arena.returned.flatMap fun r => r.2.value?.toList)

variable {h : History α} {stages : Nat → Stage α} {t u : Nat} {o : Option α}

theorem Answers.mono {h' : History α} {a : ExchangeAnswer α} (ha : h.Answers t a)
    (hp : h'.partner? t = h.partner? t)
    (ho : ∀ u o, h.offer? u = some o → h'.offer? u = some o) : h'.Answers t a := by
  cases ha with
  | own hn hoff => exact .own (hp ▸ hn) (ho _ _ hoff)
  | met hs hoff => exact .met (hp ▸ hs) (ho _ _ hoff)

namespace Inv

theorem offer_of_partner? (hi : h.Inv stages) (hp : h.partner? t = some u) :
    ∃ o, h.offer? t = some o := by
  rcases mem_of_partnerIn hp with hm | hm
  · obtain ⟨v, hv, -⟩ := hi.kinds _ hm
    exact ⟨_, hv⟩
  · obtain ⟨v, -, hv⟩ := hi.kinds _ hm
    exact ⟨_, hv⟩

theorem partner?_symm (hi : h.Inv stages) (hp : h.partner? t = some u) : h.partner? u = some t := by
  rcases mem_of_partnerIn hp with hm | hm
  · exact (partnerIn_of_mem hi.disjoint hm).2
  · exact (partnerIn_of_mem hi.disjoint hm).1

theorem visit?_eq (hi : h.Inv stages) (u : Nat) :
    h.arena.visit? u = (h.visits u).map fun v => (v.1, v.2.exchange) := by
  unfold visit? visits
  cases hv : h.arena.flights.find? u with
  | none => rfl
  | some v =>
    obtain ⟨o, ho⟩ := hi.known u v hv
    simp [ho]

theorem offer_of_answers (hi : h.Inv stages) {a : ExchangeAnswer α} (ha : h.Answers t a) :
    ∃ o, h.offer? t = some o := by
  cases ha with
  | own _ ho => exact ⟨_, ho⟩
  | met hp _ => exact hi.offer_of_partner? hp

theorem find?_of_unknown (hi : h.Inv stages) (ht : h.offer? t = none) :
    h.arena.flights.find? t = none := by
  cases hv : h.arena.flights.find? t with
  | none => rfl
  | some v =>
    obtain ⟨o, ho⟩ := hi.known t v hv
    cases ht.symm.trans ho

theorem partner?_of_unknown (hi : h.Inv stages) (ht : h.offer? t = none) : h.partner? t = none := by
  cases hp : h.partner? t with
  | none => rfl
  | some u =>
    obtain ⟨o, ho⟩ := hi.offer_of_partner? hp
    cases ht.symm.trans ho

theorem exists_of_visits (hi : h.Inv stages) {place : Nat} {p : Party α}
    (hu : h.visits u = some (place, p)) : ∃ v, h.arena.flights.find? u = some v ∧
      v.place = place ∧ h.offer? u = some p.offer := by
  unfold visits at hu
  cases hv : h.arena.flights.find? u with
  | none => simp [hv] at hu
  | some v =>
    obtain ⟨o, ho⟩ := hi.known u v hv
    simp only [hv, Option.bind_some, ho, Option.map_some, Option.some.injEq, Prod.mk.injEq] at hu
    obtain ⟨hplace, rfl⟩ := hu
    exact ⟨v, rfl, hplace, ho⟩

/-- Two calls of different kinds make a pair of a push and a pop, whichever of them joins the other. -/
theorem kinds_pair {o o' : Option α} (ht : h.offer? t = some o) (hu : h.offer? u = some o')
    (hk : o'.isSome = !o.isSome) :
    ∃ v, h.offer? (h.pair t u).1 = some (some v) ∧ h.offer? (h.pair t u).2 = some none := by
  unfold pair
  rw [ht]
  cases o with
  | none =>
    obtain ⟨v, rfl⟩ := Option.isSome_iff_exists.1 hk
    exact ⟨v, hu, ht⟩
  | some v =>
    obtain rfl : o' = none := by simpa using hk
    exact ⟨v, ht, hu⟩

/-! ## Beginning -/

theorem new (capacity : Nat) :
    ({ arena := .withCapacity capacity } : History α).Inv fun _ => .vacant where
  row := Row.Inv.new _
  known t v hv := nomatch hv
  disjoint := List.nodup_nil
  kinds p hp := nomatch hp
  alone t v hv := nomatch hv
  met t v theirs hv := nomatch hv
  answered t a ha := nomatch ha
  settled t o ho := nomatch ho
  once := List.nodup_nil
  kept := by simp [Arena.withCapacity, Row.values]

theorem offer (hi : h.Inv stages) {place : Nat} {a : Address} (ht : h.offer? t = none)
    (hp : place < h.arena.capacity) (ha : (h.arena.slot place).Usable a) (timeout : Duration)
    (o : Option α) :
    ({ h with
        arena := h.arena.startAt t place timeout o a
        offers := (t, o) :: h.offers } : History α).Inv stages := by
  have hnew : ∀ u o', h.offer? u = some o' → u ≠ t := by
    rintro u o' hu rfl
    simp [ht] at hu
  have hvt : h.visits t = none := by simp [visits, hi.find?_of_unknown ht]
  obtain ⟨hrow, hvalues⟩ := hi.row.start hvt hp ha h.arena.clock timeout o rfl
  set h' : History α := { h with
    arena := h.arena.startAt t place timeout o a
    offers := (t, o) :: h.offers } with hh'
  have hfind : ∀ u, u ≠ t → h'.arena.flights.find? u = h.arena.flights.find? u := fun u hu => by
    simp [hh', Arena.startAt, Flights.find?_insert, hu]
  have hoffer : ∀ u, u ≠ t → h'.offer? u = h.offer? u := fun u hu => by
    simp [hh', offer?, List.lookup_cons, beq_eq_false_iff_ne.2 hu]
  have hoffer_t : h'.offer? t = some o := by simp [hh', offer?]
  have hold : ∀ u o', h.offer? u = some o' → h'.offer? u = some o' := fun u o' hu => by
    rw [hoffer u (hnew u o' hu), hu]
  have hfind_t : h'.arena.flights.find? t =
      some ⟨place, (Exchange.start h.arena.clock timeout o a (h.arena.slot place)).1⟩ := by
    simp [hh', Arena.startAt, Flights.find?_insert]
  have hvisits : h'.visits = Function.update h.visits t
      (some (place, ⟨o, (Exchange.start h.arena.clock timeout o a (h.arena.slot place)).1⟩)) := by
    funext u
    by_cases hu : u = t
    · subst hu
      simp [visits, hfind_t, hoffer_t]
    · simp [visits, hfind u hu, hoffer u hu, Function.update_of_ne hu]
  constructor
  · rw [hvisits]
    exact hrow
  · intro u v hv
    by_cases hu : u = t
    · exact ⟨o, hu ▸ hoffer_t⟩
    · rw [hfind u hu] at hv
      exact (hi.known u v hv).imp fun o' ho => hold u o' ho
  · exact hi.disjoint
  · intro p hp
    exact (hi.kinds p hp).imp fun v hv => ⟨hold _ _ hv.1, hold _ _ hv.2⟩
  · intro u v hv hm
    by_cases hu : u = t
    · exact hu ▸ hi.partner?_of_unknown ht
    · exact hi.alone u v (hfind u hu ▸ hv) hm
  · intro u v theirs hv hm
    by_cases hu : u = t
    · -- nobody has joined a call that has only begun
      subst hu
      rw [hfind_t] at hv
      cases hv
      exact absurd ⟨theirs, hm⟩ (hi.row.not_met hp hvt)
    · obtain ⟨w, hw, how, hfw⟩ := hi.met u v theirs (hfind u hu ▸ hv) hm
      exact ⟨w, hw, hold w theirs how, by rw [hfind w (hnew w theirs how), hfw]⟩
  · intro u b hb
    obtain ⟨hfu, hau⟩ := hi.answered u b hb
    obtain ⟨o', ho'⟩ := hi.offer_of_answers hau
    exact ⟨by rw [hfind u (hnew u o' ho'), hfu], hau.mono rfl hold⟩
  · intro u o' ho' hfu
    by_cases hu : u = t
    · subst hu
      simp [hfind_t] at hfu
    · exact hi.settled u o' (hoffer u hu ▸ ho') (hfind u hu ▸ hfu)
  · exact hi.once
  · calc List.Perm (o.toList ++ h.offers.flatMap (·.2.toList))
          (o.toList ++ (Row.values h.arena.slots ++
            h.arena.returned.flatMap fun r => r.2.value?.toList)) := hi.kept.append_left _
      List.Perm _ _ := by
        rw [← List.append_assoc]
        exact hvalues.symm.append_right _

/-! ## One step of a call -/

variable {v : Visit α} {x' : Exchange α} {s' : Slot α} {stages' : Nat → Stage α}
  {pairs' : List (Nat × Nat)} {a : ExchangeAnswer α}

theorem visits_of_find? (hv : h.arena.flights.find? t = some v) (ho : h.offer? t = some o) :
    h.visits t = some (v.place, ⟨o, v.exchange⟩) := by
  simp [visits, hv, ho]

theorem visits_advance {h' : History α} (ho : h.offer? t = some o) (hoffers : h'.offers = h.offers)
    (hfind : ∀ u, h'.arena.flights.find? u = if u = t then
      (if x'.over then none else some { v with exchange := x' }) else h.arena.flights.find? u) :
    h'.visits = h.visits.advance t v.place o x' := by
  have hoffer : ∀ u, h'.offer? u = h.offer? u := fun u => by rw [offer?, hoffers, offer?]
  funext u
  by_cases hu : u = t
  · subst hu
    rw [visits, hfind, if_pos rfl, Visits.advance, Function.update_self, hoffer, ho]
    split <;> rfl
  · rw [visits, hfind, if_neg hu, hoffer, Visits.advance, Function.update_of_ne hu, visits]

theorem proceed (hi : h.Inv stages) (hv : h.arena.flights.find? t = some v)
    (ho : h.offer? t = some o) (hover : x'.over = false)
    (hrow : Row.Inv (h.arena.slots.set v.place s') stages' (h.visits.advance t v.place o x'))
    (hvalues : (Row.values h.arena.slots).Perm (Row.values (h.arena.slots.set v.place s')))
    (hmet : ∀ q u theirs, stages' q = .joined u theirs ↔ stages q = .joined u theirs) :
    ({ h with
        arena := { h.arena with
          slots := h.arena.slots.set v.place s'
          flights := h.arena.flights.insert t { v with exchange := x' } } } : History α).Inv
      stages' := by
  have hfind : ∀ u, (h.arena.flights.insert t { v with exchange := x' }).find? u =
      if u = t then some { v with exchange := x' } else h.arena.flights.find? u :=
    fun u => Flights.find?_insert _ _ _ _
  have hback : ∀ u v', (h.arena.flights.insert t { v with exchange := x' }).find? u = some v' →
      ∃ v'', h.arena.flights.find? u = some v'' ∧ v''.place = v'.place := by
    intro u v' hu
    rw [hfind] at hu
    split at hu
    · next e =>
      cases hu
      exact ⟨v, e ▸ hv, rfl⟩
    · exact ⟨v', hu, rfl⟩
  have hnone : ∀ u, (h.arena.flights.insert t { v with exchange := x' }).find? u = none ↔
      h.arena.flights.find? u = none := by
    intro u
    rw [hfind]
    split
    · next e => simp [e, hv]
    · exact Iff.rfl
  constructor
  · convert hrow using 1
    exact visits_advance ho rfl fun u => by simp only [hfind, hover]; rfl
  · intro u v' hu
    obtain ⟨v'', hv'', -⟩ := hback u v' hu
    exact hi.known u v'' hv''
  · exact hi.disjoint
  · exact hi.kinds
  · intro u v' hu hm
    obtain ⟨v'', hv'', hplace⟩ := hback u v' hu
    refine hi.alone u v'' hv'' ?_
    rintro ⟨theirs, e⟩
    exact hm ⟨theirs, (hmet _ _ _).2 (hplace ▸ e)⟩
  · intro u v' theirs hu hj
    obtain ⟨v'', hv'', hplace⟩ := hback u v' hu
    obtain ⟨w, hw, how, hfw⟩ := hi.met u v'' theirs hv'' (hplace ▸ (hmet _ _ _).1 hj)
    exact ⟨w, hw, how, (hnone w).2 hfw⟩
  · intro u b hb
    obtain ⟨hf, hans⟩ := hi.answered u b hb
    exact ⟨(hnone u).2 hf, hans.mono rfl fun _ _ => id⟩
  · intro u o' hu hf
    exact hi.settled u o' hu ((hnone u).1 hf)
  · exact hi.once
  · exact hi.kept.trans (hvalues.append_right _)

theorem finish (hi : h.Inv stages) (hv : h.arena.flights.find? t = some v)
    (ho : h.offer? t = some o) (ha : x'.answer? = some a)
    (hrow : Row.Inv (h.arena.slots.set v.place s') stages' (h.visits.advance t v.place o x'))
    (hvalues : (Row.values h.arena.slots).Perm
      (a.value?.toList ++ Row.values (h.arena.slots.set v.place s')))
    (hd : (pairs'.flatMap fun p => [p.1, p.2]).Nodup)
    (hk : ∀ p ∈ pairs', ∃ v, h.offer? p.1 = some (some v) ∧ h.offer? p.2 = some none)
    (halone : ∀ u v', u ≠ t → h.arena.flights.find? u = some v' → ¬ (stages' v'.place).Met u →
      partnerIn u pairs' = none)
    (hmet : ∀ u v' theirs, u ≠ t → h.arena.flights.find? u = some v' →
      stages' v'.place = .joined u theirs → ∃ w, partnerIn u pairs' = some w ∧
        h.offer? w = some theirs ∧ (w = t ∨ h.arena.flights.find? w = none))
    (hrest : ∀ u, h.arena.flights.find? u = none → partnerIn u pairs' = h.partner? u)
    (hans : ({ h with pairs := pairs' } : History α).Answers t a) :
    ({ h with
        arena := { h.arena with
          slots := h.arena.slots.set v.place s'
          flights := h.arena.flights.erase t
          returned := (t, a) :: h.arena.returned }
        pairs := pairs' } : History α).Inv stages' := by
  have hover : x'.over = true := by simp [Exchange.over, ha]
  have hfind : ∀ u, (h.arena.flights.erase t).find? u =
      if u = t then none else h.arena.flights.find? u := fun u => Flights.find?_erase _ _ _
  have hback : ∀ u v', (h.arena.flights.erase t).find? u = some v' →
      u ≠ t ∧ h.arena.flights.find? u = some v' := by
    intro u v' hu
    rw [hfind] at hu
    split at hu
    · cases hu
    · next e => exact ⟨e, hu⟩
  constructor
  · convert hrow using 1
    exact visits_advance ho rfl fun u => by simp only [hfind, hover]; rfl
  · exact fun u v' hu => hi.known u v' (hback u v' hu).2
  · exact hd
  · exact hk
  · exact fun u v' hu hm => halone u v' (hback u v' hu).1 (hback u v' hu).2 hm
  · intro u v' theirs hu hj
    obtain ⟨w, hw, how, hfw⟩ := hmet u v' theirs (hback u v' hu).1 (hback u v' hu).2 hj
    refine ⟨w, hw, how, ?_⟩
    rw [hfind]
    split
    · rfl
    · next e => exact hfw.resolve_left e
  · intro u b hb
    rcases List.mem_cons.1 hb with e | hb
    · cases e
      exact ⟨by rw [hfind, if_pos rfl], hans.mono rfl fun _ _ => id⟩
    · obtain ⟨hf, hb⟩ := hi.answered u b hb
      refine ⟨?_, hb.mono (hrest u hf) fun _ _ => id⟩
      rw [hfind, hf, ite_self]
  · intro u o' hu hf
    by_cases hut : u = t
    · exact ⟨a, hut ▸ List.mem_cons_self ..⟩
    · rw [hfind, if_neg hut] at hf
      exact (hi.settled u o' hu hf).imp fun b hb => List.mem_cons_of_mem _ hb
  · refine List.nodup_cons.2 ⟨fun hm => ?_, hi.once⟩
    obtain ⟨⟨u, b⟩, hb, rfl⟩ := List.mem_map.1 hm
    simp [(hi.answered u b hb).1] at hv
  · calc List.Perm (h.offers.flatMap (·.2.toList)) (Row.values h.arena.slots ++
          h.arena.returned.flatMap fun r => r.2.value?.toList) := hi.kept
      List.Perm _ (a.value?.toList ++ Row.values (h.arena.slots.set v.place s') ++
          h.arena.returned.flatMap fun r => r.2.value?.toList) := hvalues.append_right _
      List.Perm _ (Row.values (h.arena.slots.set v.place s') ++ (a.value?.toList ++
          h.arena.returned.flatMap fun r => r.2.value?.toList)) := by
        rw [List.append_assoc]
        exact List.perm_append_comm_assoc ..

theorem leave (hi : h.Inv stages) (hv : h.arena.flights.find? t = some v)
    (ho : h.offer? t = some o) (ha : x'.answer? = some a)
    (hrow : Row.Inv (h.arena.slots.set v.place s') stages' (h.visits.advance t v.place o x'))
    (hvalues : (Row.values h.arena.slots).Perm
      (a.value?.toList ++ Row.values (h.arena.slots.set v.place s')))
    (hmet : ∀ q u theirs, u ≠ t → (stages' q = .joined u theirs ↔ stages q = .joined u theirs))
    (hans : h.Answers t a) :
    ({ h with
        arena := { h.arena with
          slots := h.arena.slots.set v.place s'
          flights := h.arena.flights.erase t
          returned := (t, a) :: h.arena.returned } } : History α).Inv stages' := by
  refine hi.finish hv ho ha hrow hvalues hi.disjoint hi.kinds ?_ ?_ (fun _ _ => rfl) hans
  · intro u v' hu hv' hm
    refine hi.alone u v' hv' ?_
    rintro ⟨theirs, e⟩
    exact hm ⟨theirs, (hmet _ _ _ hu).2 e⟩
  · intro u v' theirs hu hv' hj
    obtain ⟨w, hw, how, hfw⟩ := hi.met u v' theirs hv' ((hmet _ _ _ hu).1 hj)
    exact ⟨w, hw, how, .inr hfw⟩

theorem meet (hi : h.Inv stages) (hv : h.arena.flights.find? t = some v)
    (ho : h.offer? t = some o) {p : Party α} (hut : u ≠ t) (hst : stages v.place = .waiting u)
    (hu : h.visits u = some (v.place, p)) (hk : p.offer.isSome = !o.isSome)
    (ha : x'.answer? = some (.ok p.offer))
    (hrow : Row.Inv (h.arena.slots.set v.place s')
      (Function.update stages v.place (.joined u o)) (h.visits.advance t v.place o x'))
    (hvalues : (Row.values h.arena.slots).Perm
      (p.offer.toList ++ Row.values (h.arena.slots.set v.place s'))) :
    ({ h with
        arena := { h.arena with
          slots := h.arena.slots.set v.place s'
          flights := h.arena.flights.erase t
          returned := (t, .ok p.offer) :: h.arena.returned }
        pairs := h.pair t u :: h.pairs } : History α).Inv
      (Function.update stages v.place (.joined u o)) := by
  obtain ⟨vu, hvu, hplace, hou⟩ := hi.exists_of_visits hu
  have hpt : h.partner? t = none := hi.alone t v hv (by rw [hst]; exact Stage.not_met_waiting)
  have hpu : h.partner? u = none :=
    hi.alone u vu hvu (by rw [hplace, hst]; exact Stage.not_met_waiting)
  have hpartner : ∀ w, partnerIn w (h.pair t u :: h.pairs) =
      if w = t then some u else if w = u then some t else partnerIn w h.pairs :=
    partnerIn_pair (Ne.symm hut)
  refine hi.finish hv ho ha hrow hvalues ?_ ?_ ?_ ?_ ?_ ?_
  · unfold pair
    split
    · exact nodup_cons_pair hi.disjoint (Ne.symm hut) hpt hpu
    · exact nodup_cons_pair hi.disjoint hut hpu hpt
  · intro q hq
    rcases List.mem_cons.1 hq with rfl | hq
    · exact kinds_pair ho hou hk
    · exact hi.kinds q hq
  · -- the one that was joined is not alone any more, and all others are as they were
    intro w vw hwt hvw hm
    have hwu : w ≠ u := by
      rintro rfl
      cases hvu.symm.trans hvw
      rw [hplace, Function.update_self] at hm
      exact hm ⟨o, rfl⟩
    rw [hpartner, if_neg hwt, if_neg hwu]
    refine hi.alone w vw hvw ?_
    by_cases hq : vw.place = v.place
    · rw [hq, hst]
      exact Stage.not_met_waiting
    · rwa [Function.update_of_ne hq] at hm
  · intro w vw theirs hwt hvw hj
    by_cases hq : vw.place = v.place
    · rw [hq, Function.update_self] at hj
      cases hj
      exact ⟨t, by rw [hpartner, if_neg hwt, if_pos rfl], ho, .inl rfl⟩
    · have hwu : w ≠ u := by
        rintro rfl
        cases hvu.symm.trans hvw
        exact hq hplace
      rw [Function.update_of_ne hq] at hj
      obtain ⟨z, hz, hoz, hfz⟩ := hi.met w vw theirs hvw hj
      exact ⟨z, by rw [hpartner, if_neg hwt, if_neg hwu]; exact hz, hoz, .inr hfz⟩
  · intro w hfw
    have hwt : w ≠ t := by rintro rfl; simp [hv] at hfw
    have hwu : w ≠ u := by rintro rfl; simp [hvu] at hfw
    rw [hpartner, if_neg hwt, if_neg hwu, partner?]
  · exact .met (by rw [partner?, hpartner, if_pos rfl]) hou

theorem joined?_eq_some (hi : h.Inv stages) (hv : h.arena.flights.find? t = some v)
    (hp : v.place < h.arena.slots.length) (hj : v.exchange.joins (h.arena.slot v.place) = true)
    (hst : stages v.place = .waiting u) : h.arena.joined? t = some u := by
  rw [joined?_of_joins hv hj]
  refine hi.row.waiter?_eq hp (by rw [hst]; rfl) hi.visit?_eq fun u' v' hu' => ?_
  unfold visits at hu'
  cases hf : h.arena.flights.find? u' with
  | none => simp [hf] at hu'
  | some c => exact Flights.mem_threads hf

theorem happen_step (h : History α) (t : Nat) : h.happen (.step t) = { h with
    arena := h.arena.step t
    pairs := match h.arena.joined? t with
      | some u => h.pair t u :: h.pairs
      | none => h.pairs } := rfl

theorem step (hi : h.Inv stages) (t : Nat) : ∃ stages', (h.happen (.step t)).Inv stages' := by
  rw [happen_step]
  cases hv : h.arena.flights.find? t with
  | none =>
    rw [step_of_none hv, joined?_of_not_joins (by simp [hv])]
    exact ⟨stages, hi⟩
  | some v =>
    obtain ⟨o, ho⟩ := hi.known t v hv
    have hvisit := visits_of_find? hv ho
    have hp := hi.row.inside t _ _ hvisit
    have hslot := hi.row.slot v.place hp
    have ht := Visits.callers_eq_some.2 hvisit
    have hocc := hslot.occupant t _ ht
    cases hx : v.exchange.step h.arena.clock (h.arena.slot v.place) with | mk x' s' => ?_
    obtain ⟨taken, stage', hmove, hrow, hvalues⟩ := hi.row.step hvisit h.arena.clock hx
    have hjoins := hslot.joins_iff ht hx hmove
    have hapart : (¬ ∃ u, stages v.place = .waiting u ∧ stage' = .joined u o) →
        h.arena.joined? t = none := by
      intro hn
      refine joined?_of_not_joins fun v' hv' => ?_
      cases hv.symm.trans hv'
      exact Bool.eq_false_iff.2 fun hj => hn (hjoins.1 hj)
    have hnot : ¬ (stages v.place).Met t → h.partner? t = none := hi.alone t v hv
    refine ⟨Function.update stages v.place stage', ?_⟩
    have hsame : ∀ {st : Stage α}, (∀ u theirs, u ≠ t → (st = .joined u theirs ↔
          stages v.place = .joined u theirs)) → ∀ q u theirs, u ≠ t →
        (Function.update stages v.place st q = .joined u theirs ↔ stages q = .joined u theirs) := by
      intro st hst q u theirs hu
      by_cases hq : q = v.place
      · subst hq
        rw [Function.update_self]
        exact hst u theirs hu
      · rw [Function.update_of_ne hq]
    generalize hst : stages v.place = stage at hmove hjoins hapart hocc hnot hsame
    cases hmove with
    | goOn hover =>
      rw [step_of_not_over hv hx hover, hapart (by rintro ⟨u, rfl, e⟩; cases e)]
      refine hi.proceed hv ho hover hrow hvalues fun q u theirs => ?_
      rw [← hst, Function.update_eq_self]
    | claim hover =>
      rw [step_of_not_over hv hx hover, hapart (by rintro ⟨u, e, -⟩; cases e)]
      refine hi.proceed hv ho hover hrow hvalues fun q u theirs => ?_
      by_cases hq : q = v.place
      · subst hq
        simp [hst]
      · rw [Function.update_of_ne hq]
    | expire hout ha =>
      rw [step_of_answer hv hx ha, hapart (by rintro ⟨u, rfl, e⟩; cases e)]
      exact hi.leave hv ho ha hrow hvalues (hsame fun _ _ _ => Iff.rfl)
        (.own (hnot fun hm => hout hm.occupant) ho)
    | withdraw ha =>
      rw [step_of_answer hv hx ha, hapart (by rintro ⟨u, -, e⟩; cases e)]
      exact hi.leave hv ho ha hrow hvalues (hsame fun _ _ _ => by simp)
        (.own (hnot Stage.not_met_waiting) ho)
    | @join _ u p hut hu hk ha =>
      rw [step_of_answer hv hx ha, hi.joined?_eq_some hv hp (hjoins.2 ⟨u, rfl, rfl⟩) hst]
      exact hi.meet hv ho hut hst (Visits.callers_eq_some.1 hu) hk ha hrow hvalues
    | clear ha =>
      rw [step_of_answer hv hx ha, hapart (by rintro ⟨u, e, -⟩; cases e)]
      obtain ⟨u, hu, hou, -⟩ := hi.met t v _ hv hst
      exact hi.leave hv ho ha hrow hvalues
        (hsame fun u theirs hu => by simp [Ne.symm hu]) (.met hu hou)

/-- The clock matters to nobody but the calls that read it. -/
theorem advance (hi : h.Inv stages) (nanos : Nat) : (h.happen (.advance nanos)).Inv stages :=
  ⟨hi.row, hi.known, hi.disjoint, hi.kinds, hi.alone, hi.met, fun t a ha =>
    (hi.answered t a ha).imp id fun hans => hans.mono rfl fun _ _ => id,
    hi.settled, hi.once, hi.kept⟩

theorem happen (hi : h.Inv stages) (e : Event α) : ∃ stages', (h.happen e).Inv stages' := by
  cases e with
  | offer t place timeout o a =>
    refine ⟨stages, ?_⟩
    unfold History.happen
    dsimp only
    split
    · next hg => exact hi.offer hg.1 hg.2.1 hg.2.2 timeout o
    · exact hi
  | step t => exact hi.step t
  | advance nanos => exact ⟨stages, hi.advance nanos⟩

theorem foldl (hi : h.Inv stages) (events : List (Event α)) :
    ∃ stages', (events.foldl History.happen h).Inv stages' := by
  induction events generalizing h stages with
  | nil => exact ⟨stages, hi⟩
  | cons e events ih =>
    obtain ⟨stages', hi'⟩ := hi.happen e
    exact ih hi'

/-! ## What the invariant says -/

theorem answers_ok {theirs : Option α} (ha : h.Answers t (.ok theirs)) :
    ∃ u, h.partner? t = some u ∧ h.offer? u = some theirs := by
  cases ha with
  | met hp ho => exact ⟨_, hp, ho⟩

theorem answers_error {e : Timeout α} (ha : h.Answers t (.error e)) :
    h.partner? t = none ∧ h.offer? t = some e.offer := by
  cases ha with
  | own hp ho => exact ⟨hp, ho⟩

/-- A call with a partner returns what the partner has offered. -/
theorem eq_of_partner? (hi : h.Inv stages) (hp : h.partner? t = some u) (ho : h.offer? u = some o)
    {a : ExchangeAnswer α} (ha : (t, a) ∈ h.arena.returned) : a = .ok o := by
  cases (hi.answered t a ha).2 with
  | own hn _ => simp [hp] at hn
  | met hm hom =>
    cases hp.symm.trans hm
    cases ho.symm.trans hom
    rfl

/-- The offer of a call that nobody has joined lies in its own envelope. -/
theorem finds_caller (hi : h.Inv stages) {v : α} {visit : Visit α} (ho : h.offer? t = some (some v))
    (hv : h.arena.flights.find? t = some visit) (hp : h.partner? t = none) :
    h.Finds t v .caller := by
  have hvisit := visits_of_find? hv ho
  have hslot := hi.row.slot _ (hi.row.inside t _ _ hvisit)
  refine ⟨visit, hv, hslot.holds (Visits.callers_eq_some.2 hvisit) ?_⟩
  rintro ⟨theirs, hst⟩
  obtain ⟨u, hu, -⟩ := hi.met t visit theirs hv hst
  simp [hp] at hu

/-- The offer of a joiner lies where the word of the slot says, until the waiter takes it. -/
theorem finds_slot (hi : h.Inv stages) {v : α} {visit : Visit α} (ho : h.offer? t = some (some v))
    (hp : h.partner? t = some u) (hv : h.arena.flights.find? u = some visit) :
    h.Finds t v (.slot u) := by
  obtain ⟨ou, hou⟩ := hi.known u visit hv
  have hvisit := visits_of_find? hv hou
  have hslot := hi.row.slot _ (hi.row.inside u _ _ hvisit)
  have hpu := hi.partner?_symm hp
  obtain ⟨theirs, hst⟩ : (stages visit.place).Met u := by
    by_contra hm
    simp [hi.alone u visit hv hm] at hpu
  obtain ⟨t', ht', ho', -⟩ := hi.met u visit theirs hv hst
  cases hpu.symm.trans ht'
  cases ho.symm.trans ho'
  rw [hst] at hslot
  obtain ⟨p, a, -, hw, h4, -⟩ := hslot.writes
  have hholds := hslot.keeps.holds _ _ _ (.slot rfl)
  rw [hw, Word.address_compose _ _ h4] at hholds
  exact ⟨visit, a, hv, hw, hholds⟩

theorem finds (hi : h.Inv stages) {v : α} (ho : h.offer? t = some (some v)) :
    h.Finds t v (h.whereabouts t) := by
  unfold whereabouts
  cases hp : h.partner? t with
  | none =>
    cases hv : h.arena.flights.find? t with
    | some visit => exact hi.finds_caller ho hv hp
    | none =>
      obtain ⟨a, ha⟩ := hi.settled t _ ho hv
      cases (hi.answered t a ha).2 with
      | own _ hown =>
        cases ho.symm.trans hown
        exact ha
      | met hm _ => simp [hp] at hm
  | some u =>
    dsimp only
    cases hv : h.arena.flights.find? u with
    | some visit => exact hi.finds_slot ho hp hv
    | none =>
      have hpu := hi.partner?_symm hp
      obtain ⟨ou, hou⟩ := hi.offer_of_partner? hpu
      obtain ⟨a, ha⟩ := hi.settled u _ hou hv
      cases hi.eq_of_partner? hpu ho ha
      exact ha

theorem paired (hi : h.Inv stages) : h.Paired where
  disjoint := hi.disjoint
  pairs push pop hm := by
    obtain ⟨v, hpush, hpop⟩ := hi.kinds _ hm
    obtain ⟨hp, hq⟩ := partnerIn_of_mem hi.disjoint hm
    exact ⟨v, hpush, hpop, fun a ha => hi.eq_of_partner? hp hpop ha,
      fun a ha => hi.eq_of_partner? hq hpush ha⟩
  completed t theirs ha := by
    obtain ⟨u, hu, -⟩ := answers_ok (hi.answered t _ ha).2
    exact ⟨u, mem_of_partnerIn hu⟩
  expired t e ha := by
    obtain ⟨hn, ho⟩ := answers_error (hi.answered t _ ha).2
    exact ⟨ho, (partner?_eq_none_iff hi.disjoint).1 hn⟩
  once := hi.once
  found t v ho := hi.finds ho
  kept := hi.kept

end Inv

/-- Over every run, the calls meet in pairs, and every value is in one place. -/
theorem pairing_and_conservation (capacity : Nat) (events : List (Event α)) :
    (run capacity events).Paired := by
  obtain ⟨stages, hi⟩ := (Inv.new capacity).foldl events
  exact hi.paired

-- a push that is out of time finds that it cannot leave, as a pop has joined it
example : (run 1 [.offer 1 0 ⟨0, 5, by decide⟩ (some 7) 64, .step 1, .step 1, .step 1,
    .offer 2 0 ⟨0, 5, by decide⟩ none 128, .step 2, .step 2, .advance 6, .step 1, .step 1,
    .step 2, .step 1, .step 1, .step 1]).pairs = [(1, 2)] := by
  decide

end History

end Arena

end BackoffStack
