/-
What lies where, while look-ups make segments and link them.

The chain is strung along its links (`Strung`, or link by link `Leads`), every address is free, in the chain
or some look-up's own (`Placed`), and segments are told apart by their numbers (`Numbered`). Here is what a
segment that is made, linked or freed does to each of these, and what those find that go along the links.
-/
import BackoffStack.Proofs.Segment.Chain
import Mathlib.Data.List.Nodup

namespace BackoffStack.SegmentTable.Chain

variable {α : Type}

/-- What is at an address. -/
inductive Spot where
  | free
  /-- A segment that a look-up has made, and has not linked. -/
  | own (t : Nat)
  /-- A segment of the chain. -/
  | linked

/-- The links lead from the head through segments at these addresses, and that is the end. -/
structure Strung (blocks : Address → Option (Block α)) (head : Address) (l : List Address) : Prop where
  head : l[0]? = some head
  link : ∀ k a, l[k]? = some a → ∃ b, blocks a = some b ∧ b.next = l[k + 1]?
  once : l.Nodup

/-- Every address is what it is taken for. -/
structure Placed (blocks : Address → Option (Block α)) (getters : Flights Getter) (l : List Address)
    (spot : Address → Spot) : Prop where
  linked : ∀ a, a ∈ l ↔ spot a = .linked
  free : ∀ a, blocks a = none ↔ spot a = .free
  own : ∀ a t, spot a = .own t ↔ ∃ g, getters.find? t = some g ∧ g.point = .link a

/-- Segments are told apart by their numbers. Each one that was made lies somewhere or has been freed. -/
structure Numbered (blocks : Address → Option (Block α)) (made : Nat) (freed : List Nat) : Prop where
  known : ∀ a b, blocks a = some b → b.serial < made ∧ b.serial ∉ freed
  apart : ∀ a a' b b', blocks a = some b → blocks a' = some b' → b.serial = b'.serial → a = a'
  gone : ∀ n ∈ freed, n < made
  once : freed.Nodup
  kept : ∀ n < made, n ∈ freed ∨ ∃ a b, blocks a = some b ∧ b.serial = n

/-- The links lead from here through these segments, and that is the end. -/
inductive Leads (blocks : Address → Option (Block α)) :
    Option Address → List Address → List (Block α) → Prop
  | done : Leads blocks none [] []
  | more {a b r bs} (block : blocks a = some b) (rest : Leads blocks b.next r bs) :
      Leads blocks (some a) (a :: r) (b :: bs)

variable {c : Chain α} {blocks blocks' : Address → Option (Block α)} {l r : List Address}
  {spot : Address → Spot} {getters : Flights Getter} {made : Nat} {freed : List Nat} {t : Nat}
  {g : Getter} {a mine : Address} {a? : Option Address} {b : Block α} {bs : List (Block α)}

/-! ## The chain -/

/-- A segment is changed, but not in this respect. -/
theorem map_update {γ : Type} {b' : Block α} {f : Block α → γ} (hb : blocks a = some b) (hf : f b' = f b)
    (a' : Address) : (Function.update blocks a (some b') a').map f = (blocks a').map f := by
  by_cases ha : a' = a <;> simp [ha, hb, hf]

theorem update_eq_none (hb : blocks a = some b) (b' : Block α) (a' : Address) :
    Function.update blocks a (some b') a' = none ↔ blocks a' = none := by
  by_cases ha : a' = a <;> simp [ha, hb]

theorem Strung.congr {head : Address} (h : Strung blocks head l)
    (hn : ∀ a ∈ l, (blocks' a).map (·.next) = (blocks a).map (·.next)) : Strung blocks' head l := by
  refine ⟨h.head, fun k a ha => ?_, h.once⟩
  obtain ⟨b, hb, hnext⟩ := h.link k a ha
  have hsame := hn a (List.mem_of_getElem? ha)
  rw [hb, Option.map_some] at hsame
  obtain ⟨b', hb', he⟩ := Option.map_eq_some_iff.1 hsame
  exact ⟨b', hb', he.trans hnext⟩

theorem Strung.last {head last : Address} {k : Nat} (h : Strung blocks head l)
    (hlast : l[k]? = some last) (hb : blocks last = some b) : b.next = none ↔ k + 1 = l.length := by
  obtain ⟨b', hb', hn⟩ := h.link k last hlast
  cases hb.symm.trans hb'
  have hk := (List.getElem?_eq_some_iff.1 hlast).1
  rw [hn, List.getElem?_eq_none_iff]
  omega

theorem Strung.push {head last : Address} {k : Nat} (h : Strung blocks head l)
    (hlast : l[k]? = some last) (hb : blocks last = some b) (hnext : b.next = none) (hmine : mine ∉ l)
    {fresh : Block α} (hfresh : blocks mine = some fresh) (hend : fresh.next = none) :
    Strung (Function.update blocks last (some { b with next := some mine })) head (l ++ [mine]) := by
  have hk := (h.last hlast hb).1 hnext
  have hne : mine ≠ last := fun he => hmine (he ▸ List.mem_of_getElem? hlast)
  refine ⟨?_, fun j a ha => ?_, ?_⟩
  · rw [List.getElem?_append_left (by omega)]
    exact h.head
  · have hj := (List.getElem?_eq_some_iff.1 ha).1
    rw [List.length_append, List.length_singleton] at hj
    by_cases hjl : j < l.length
    · rw [List.getElem?_append_left hjl] at ha
      by_cases hal : a = last
      · subst hal
        obtain rfl : j = k := (List.getElem?_inj hjl h.once).1 (ha.trans hlast.symm)
        refine ⟨_, Function.update_self .., ?_⟩
        simp [hk]
      · obtain ⟨b', hb', hn⟩ := h.link j a ha
        have hjk : j ≠ k := fun he => hal (Option.some.inj (ha.symm.trans (he ▸ hlast)))
        refine ⟨b', by rw [Function.update_of_ne hal, hb'], ?_⟩
        rw [hn, List.getElem?_append_left (by omega)]
    · obtain rfl : j = l.length := by omega
      obtain rfl : mine = a := by simpa using ha
      refine ⟨fresh, by rw [Function.update_of_ne hne, hfresh], ?_⟩
      simp [hend]
  · simpa [List.nodup_append] using ⟨h.once, fun a ha he => hmine (he ▸ ha)⟩

theorem Strung.segmentAt_eq (h : Strung c.blocks c.head l) (k : Nat) : c.segmentAt k = l[k]? := by
  induction k with
  | zero => exact h.head.symm
  | succ k ih =>
    simp only [segmentAt, ih, Option.bind_eq_bind]
    cases hk : l[k]? with
    | none =>
      have hlength := List.getElem?_eq_none_iff.1 hk
      simp [List.getElem?_eq_none (Nat.le_succ_of_le hlength)]
    | some a =>
      obtain ⟨b, hb, hn⟩ := h.link k a hk
      simp [hb, hn]

/-! ## Addresses -/

section Placed

variable (h : Placed blocks getters l spot)
include h

theorem Placed.not_mem (hf : getters.find? t = some g) (hp : g.point = .link mine) : mine ∉ l := by
  intro hm
  have hown := (h.own mine t).2 ⟨g, hf, hp⟩
  rw [(h.linked mine).1 hm] at hown
  cases hown

theorem Placed.ne_of_own {a' : Address} (ha : spot a = .own t) (ha' : a' ∈ l) : a ≠ a' := by
  rintro rfl
  rw [(h.linked a).1 ha'] at ha
  cases ha

theorem Placed.there (hf : getters.find? t = some g) (hp : g.point = .link mine) :
    ∃ b, blocks mine = some b := by
  cases hb : blocks mine with
  | some b => exact ⟨b, rfl⟩
  | none =>
    have hown := (h.own mine t).2 ⟨g, hf, hp⟩
    rw [(h.free mine).1 hb] at hown
    cases hown

theorem Placed.goOn {g' : Getter} (hblocks : ∀ a, blocks' a = none ↔ blocks a = none)
    (hold : ∀ a g, getters.find? t = some g → g.point ≠ .link a) (hnew : g'.point = .load) :
    Placed blocks' (getters.insert t g') l spot := by
  refine ⟨h.linked, fun a => (hblocks a).trans (h.free a), fun a u => ?_⟩
  rw [h.own, Flights.find?_insert]
  by_cases hu : u = t
  · subst hu
    simp [hnew]
    exact fun g hg => hold a g hg
  · simp [hu]

theorem Placed.make {g' : Getter} (ha : blocks a = none) (b : Block α)
    (hold : ∀ a g, getters.find? t = some g → g.point ≠ .link a) (hnew : g'.point = .link a) :
    Placed (Function.update blocks a (some b)) (getters.insert t g') l
      (Function.update spot a (.own t)) := by
  have hfree := (h.free a).1 ha
  refine ⟨fun a' => ?_, fun a' => ?_, fun a' u => ?_⟩
  · by_cases haa : a' = a
    · subst haa
      simp [h.linked, hfree]
    · simp [haa, h.linked]
  · by_cases haa : a' = a
    · subst haa
      simp
    · simp [haa, h.free]
  · rw [Flights.find?_insert]
    by_cases haa : a' = a
    · subst haa
      by_cases hu : u = t
      · subst hu
        simp [hnew]
      · -- nobody else has it, as it was free
        simp [hu, Ne.symm hu]
        intro g hg hp
        have hown := (h.own a' u).2 ⟨g, hg, hp⟩
        rw [hfree] at hown
        cases hown
    · rw [Function.update_of_ne haa, h.own]
      by_cases hu : u = t
      · subst hu
        simp [hnew, Ne.symm haa]
        exact fun g hg => hold a' g hg
      · simp [hu]

/-- The segment that a look-up has made becomes one of the chain, or is freed. -/
theorem Placed.settle {g' : Getter} {l' : List Address} {s : Spot} (hf : getters.find? t = some g)
    (hp : g.point = .link mine) (hnew : g'.point = .load) (hs : ∀ u, s ≠ .own u)
    (hl : ∀ a, a ∈ l' ↔ if a = mine then s = .linked else a ∈ l)
    (hb : ∀ a, blocks' a = none ↔ if a = mine then s = .free else blocks a = none) :
    Placed blocks' (getters.insert t g') l' (Function.update spot mine s) := by
  have hmine := (h.own mine t).2 ⟨g, hf, hp⟩
  refine ⟨fun a => ?_, fun a => ?_, fun a u => ?_⟩
  · rw [hl]
    by_cases ha : a = mine
    · simp [ha]
    · simp [ha, h.linked]
  · rw [hb]
    by_cases ha : a = mine
    · simp [ha]
    · simp [ha, h.free]
  · rw [Flights.find?_insert]
    by_cases ha : a = mine
    · subst ha
      by_cases hu : u = t
      · simp [hu, hs, hnew]
      · simp [hu, hs]
        intro g hg hq
        have hown := (h.own a u).2 ⟨g, hg, hq⟩
        rw [hmine] at hown
        exact hu (Spot.own.inj hown).symm
    · rw [Function.update_of_ne ha, h.own]
      by_cases hu : u = t
      · subst hu
        simp [hf, hp, hnew, Ne.symm ha]
      · simp [hu]

end Placed

/-! ## Numbers -/

theorem Numbered.congr (h : Numbered blocks made freed)
    (hn : ∀ a, (blocks' a).map (·.serial) = (blocks a).map (·.serial)) :
    Numbered blocks' made freed := by
  have hold : ∀ a b', blocks' a = some b' → ∃ b, blocks a = some b ∧ b.serial = b'.serial := by
    intro a b' hb'
    have hsame := hn a
    rw [hb', Option.map_some] at hsame
    exact Option.map_eq_some_iff.1 hsame.symm
  refine ⟨fun a b' hb' => ?_, fun a a' b b' hb hb' he => ?_, h.gone, h.once, fun n hn' => ?_⟩
  · obtain ⟨b, hb, he⟩ := hold a b' hb'
    exact he ▸ h.known a b hb
  · obtain ⟨d, hd, hde⟩ := hold a b hb
    obtain ⟨d', hd', hde'⟩ := hold a' b' hb'
    exact h.apart a a' d d' hd hd' (by rw [hde, hde', he])
  · refine (h.kept n hn').imp id fun hlies => ?_
    obtain ⟨a, b, hb, he⟩ := hlies
    have hsame := hn a
    rw [hb, Option.map_some] at hsame
    obtain ⟨b', hb', he'⟩ := Option.map_eq_some_iff.1 hsame
    exact ⟨a, b', hb', he'.trans he⟩

theorem Numbered.make (h : Numbered blocks made freed) (ha : blocks a = none) (slots : Segment α) :
    Numbered (Function.update blocks a (some ⟨made, slots, none⟩)) (made + 1) freed := by
  have hold : ∀ a' b', Function.update blocks a (some ⟨made, slots, none⟩) a' = some b' →
      (a' = a ∧ b'.serial = made) ∨ (a' ≠ a ∧ blocks a' = some b' ∧ b'.serial < made) := by
    intro a' b' hb'
    by_cases haa : a' = a
    · subst haa
      rw [Function.update_self] at hb'
      exact .inl ⟨rfl, by rw [← Option.some.inj hb']⟩
    · rw [Function.update_of_ne haa] at hb'
      exact .inr ⟨haa, hb', (h.known a' b' hb').1⟩
  refine ⟨fun a' b' hb' => ?_, fun a₁ a₂ b₁ b₂ h₁ h₂ he => ?_, fun n hn => ?_, h.once, fun n hn => ?_⟩
  · rcases hold a' b' hb' with ⟨-, he⟩ | ⟨-, hb, -⟩
    · rw [he]
      exact ⟨Nat.lt_succ_self made, fun hm => Nat.lt_irrefl _ (h.gone made hm)⟩
    · exact ⟨Nat.lt_succ_of_lt (h.known a' b' hb).1, (h.known a' b' hb).2⟩
  · rcases hold a₁ b₁ h₁ with ⟨rfl, he₁⟩ | ⟨-, hb₁, hlt₁⟩ <;>
      rcases hold a₂ b₂ h₂ with ⟨rfl, he₂⟩ | ⟨-, hb₂, hlt₂⟩
    · rfl
    · omega
    · omega
    · exact h.apart a₁ a₂ b₁ b₂ hb₁ hb₂ he
  · exact Nat.lt_succ_of_lt (h.gone n hn)
  · by_cases hlt : n < made
    · refine (h.kept n hlt).imp id fun hlies => ?_
      obtain ⟨a', b', hb', he⟩ := hlies
      have hne : a' ≠ a := by
        intro haa
        rw [haa, ha] at hb'
        cases hb'
      exact ⟨a', b', by rw [Function.update_of_ne hne, hb'], he⟩
    · exact .inr ⟨a, _, Function.update_self .., by simp only; omega⟩

theorem Numbered.release (h : Numbered blocks made freed) (hb : blocks a = some b) :
    Numbered (Function.update blocks a none) made (b.serial :: freed) := by
  have hold : ∀ a' b', Function.update blocks a none a' = some b' → a' ≠ a ∧ blocks a' = some b' := by
    intro a' b' hb'
    by_cases haa : a' = a
    · simp [haa] at hb'
    · rw [Function.update_of_ne haa] at hb'
      exact ⟨haa, hb'⟩
  obtain ⟨hlt, hnot⟩ := h.known a b hb
  refine ⟨fun a' b' hb' => ?_, fun a₁ a₂ b₁ b₂ h₁ h₂ he => ?_, fun n hn => ?_,
    List.nodup_cons.2 ⟨hnot, h.once⟩, fun n hn => ?_⟩
  · obtain ⟨hne, hb'⟩ := hold a' b' hb'
    obtain ⟨hlt', hnot'⟩ := h.known a' b' hb'
    refine ⟨hlt', fun hm => ?_⟩
    rcases List.mem_cons.1 hm with he | hm
    · exact hne (h.apart a' a b' b hb' hb he)
    · exact hnot' hm
  · exact h.apart a₁ a₂ b₁ b₂ (hold a₁ b₁ h₁).2 (hold a₂ b₂ h₂).2 he
  · rcases List.mem_cons.1 hn with rfl | hn
    · exact hlt
    · exact h.gone n hn
  · rcases h.kept n hn with hfreed | ⟨a', b', hb', he⟩
    · exact .inl (List.mem_cons_of_mem _ hfreed)
    · by_cases haa : a' = a
      · subst haa
        cases hb.symm.trans hb'
        exact .inl (he ▸ List.mem_cons_self ..)
      · exact .inr ⟨a', b', by rw [Function.update_of_ne haa, hb'], he⟩

/-! ## Along the links -/

theorem Strung.leads {head : Address} (h : Strung blocks head l) : ∃ bs, Leads blocks (some head) l bs := by
  have hsuffix : ∀ r pre, pre ++ r = l → ∃ bs, Leads blocks r.head? r bs := by
    intro r
    induction r with
    | nil => exact fun _ _ => ⟨[], .done⟩
    | cons a r ih =>
      intro pre hl
      obtain ⟨b, hb, hn⟩ := h.link pre.length a (by simp [← hl])
      have hnext : b.next = r.head? := by
        rw [hn, ← hl, List.getElem?_append_right (Nat.le_succ _), List.head?_eq_getElem?]
        simp
      obtain ⟨bs, hbs⟩ := ih (pre ++ [a]) (by simpa using hl)
      exact ⟨b :: bs, .more hb (hnext ▸ hbs)⟩
  rw [← h.head, ← List.head?_eq_getElem?]
  exact hsuffix l [] rfl

theorem Leads.congr (h : Leads blocks a? r bs) (hsame : ∀ a ∈ r, blocks' a = blocks a) :
    Leads blocks' a? r bs := by
  induction h with
  | done => exact .done
  | more hb _ ih =>
    exact .more ((hsame _ (List.mem_cons_self ..)).trans hb)
      (ih fun a ha => hsame a (List.mem_cons_of_mem _ ha))

theorem Leads.getElem? (h : Leads blocks a? r bs) (k : Nat) : bs[k]? = (r[k]?).bind blocks := by
  induction h generalizing k with
  | done => rfl
  | more hb _ ih =>
    cases k with
    | zero => simp [hb]
    | succ k => simpa using ih k

theorem Leads.exists_of_mem (h : Leads blocks a? r bs) (hb : b ∈ bs) : ∃ a ∈ r, blocks a = some b := by
  obtain ⟨k, hk⟩ := List.mem_iff_getElem?.1 hb
  rw [h.getElem?, Option.bind_eq_some_iff] at hk
  obtain ⟨a, ha, hb⟩ := hk
  exact ⟨a, List.mem_of_getElem? ha, hb⟩

theorem Leads.nodup_serials (h : Leads blocks a? r bs) (hr : r.Nodup) (hn : Numbered blocks made freed) :
    (bs.map (·.serial)).Nodup := by
  induction h with
  | done => exact List.nodup_nil
  | more hb hrest ih =>
    obtain ⟨hnot, hr⟩ := List.nodup_cons.1 hr
    refine List.nodup_cons.2 ⟨fun hm => ?_, ih hr⟩
    obtain ⟨b', hb', he⟩ := List.mem_map.1 hm
    obtain ⟨a', ha', hb'⟩ := hrest.exists_of_mem hb'
    exact hnot (hn.apart _ _ _ _ hb' hb he ▸ ha')

theorem Leads.countFrom_eq (h : Leads c.blocks a? r bs) (n : Nat) :
    c.countFrom n a? = Part.some (n + r.length) := by
  generalize hblocks : c.blocks = blocks at h
  induction h generalizing n with
  | done => exact rounds_of_leaves rfl
  | @more a b r bs hb _ ih =>
    have hgoes : c.countFrom n (some a) = c.countFrom (n + 1) b.next :=
      rounds_of_goes_on (by simp [countNext, hblocks, hb])
    rw [hgoes, ih, List.length_cons, Nat.add_assoc, Nat.add_comm 1]

/-- Without the segments at these addresses, which have been freed. -/
def without (c : Chain α) (r : List Address) : Chain α :=
  { c with blocks := fun a => if a ∈ r then none else c.blocks a }

theorem without_put (c : Chain α) (a : Address) (r : List Address) :
    (c.put a none).without r = c.without (a :: r) := by
  have hblocks : (fun a' => if a' ∈ r then none else Function.update c.blocks a none a') =
      fun a' => if a' ∈ a :: r then none else c.blocks a' := by
    funext a'
    by_cases ha : a' = a <;> simp [ha]
  simp only [without, put, hblocks]

theorem put_without (c : Chain α) (a : Address) (r : List Address) :
    (c.without r).put a none = c.without (a :: r) := by
  have hblocks : Function.update (fun a' => if a' ∈ r then none else c.blocks a') a none =
      fun a' => if a' ∈ a :: r then none else c.blocks a' := by
    funext a'
    by_cases ha : a' = a <;> simp [ha]
  simp only [without, put, hblocks]

/-- Segments are freed one after another, each once. -/
theorem Leads.dropFrom_eq (h : Leads c.blocks a? r bs) (hr : r.Nodup) (dropped : List (Block α)) :
    c.dropFrom dropped a? = Part.some (c.without r, dropped ++ bs) := by
  -- along the links, the rest of which are still there as no segment comes twice
  induction r generalizing c a? bs dropped with
  | nil =>
    cases h
    exact rounds_of_leaves (by simp [dropNext, without])
  | cons a r ih =>
    cases h with
    | @more _ b _ bs hb hrest =>
      obtain ⟨hnot, hr⟩ := List.nodup_cons.1 hr
      have hnext : Leads (c.put a none).blocks b.next r bs :=
        hrest.congr fun a' ha' => Function.update_of_ne (by rintro rfl; exact hnot ha') ..
      have hgoes : c.dropFrom dropped (some a) = (c.put a none).dropFrom (dropped ++ [b]) b.next :=
        rounds_of_goes_on (by simp [dropNext, hb])
      rw [hgoes, ih hnext hr, without_put, List.append_assoc, List.singleton_append]

/-- The whole table goes. -/
theorem Leads.drop_eq {l : List Address} (h : Leads c.blocks (some c.head) (c.head :: l) (b :: bs))
    (hl : (c.head :: l).Nodup) : c.drop = Part.some (c.without (c.head :: l), bs ++ [b]) := by
  obtain ⟨hnot, hl⟩ := List.nodup_cons.1 hl
  cases h with
  | more hb hrest =>
    have hhead : (c.without l).blocks (c.without l).head = some b := (if_neg hnot).trans hb
    rw [drop, hb, Part.coe_some, Part.bind_eq_bind, Part.bind_some, hrest.dropFrom_eq hl []]
    simp [hhead, ← put_without]
    rfl

end BackoffStack.SegmentTable.Chain
