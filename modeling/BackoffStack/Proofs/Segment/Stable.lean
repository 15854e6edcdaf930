/-
What look-ups find in the chain of segments, and what becomes of the chain.

An access of a look-up is a step of its walk along the table that the chain presents, so it returns the slot
of its id (`Chain.Returns`). Nothing that happens later moves a segment or changes a slot that is not
written to (`Chain.Keeps`). A segment that was made in vain is freed, and nobody ever gets to it
(`Chain.Frees`). When no look-up is under way, the chain is as long as the furthest id needs, and the slots
that go with the table are those of its segments, each once (`Chain.Ends`).
-/
import BackoffStack.Proofs.Segment.Growth
import Mathlib.Data.Fintype.EquivFin
import Mathlib.Order.Bounds.Basic

namespace BackoffStack.SegmentTable.Chain

variable {α : Type} [Inhabited α] {c c' c'' : Chain α} {l : List Address} {spot : Address → Spot}
  {table : SegmentTable α} {t k : Nat} {g : Getter} {a : Address} {b : Block α} {e : Event α}

/-- The chain is this table, segment by segment. -/
def Presents (c : Chain α) (table : SegmentTable α) : Prop :=
  ∀ k, table.segment? k = (c.segmentAt k).bind fun a => (c.blocks a).map (·.slots)

/-- No look-up is under way. -/
def Quiet (c : Chain α) : Prop :=
  ∀ t g, c.getters.find? t = some g → g.arrived = true

/-- What look-ups find. -/
structure Returns (c : Chain α) (table : SegmentTable α) : Prop where
  /-- A look-up that has returned is at the slot of its id, in the segment as far down the chain as that
  says. -/
  slot : ∀ t g, c.getters.find? t = some g → g.arrived = true →
    c.segmentAt (g.id / segmentSize) = some g.place ∧ g.rest = g.id % segmentSize
  /-- Two look-ups have returned the same slot just if they were of the same id. -/
  same : ∀ t g u g', c.getters.find? t = some g → g.arrived = true → c.getters.find? u = some g' →
    g'.arrived = true → ((g.place = g'.place ∧ g.rest = g'.rest) ↔ g.id = g'.id)
  /-- The slot holds what has been done to it since the beginning. -/
  holds : ∀ t g, c.getters.find? t = some g → g.arrived = true →
    ∃ b, c.blocks g.place = some b ∧ b.slots[g.rest]? = some (written c.writes g.id)
  /-- A look-up that has not returned makes one step of its walk along the table, wherever it is given
  room. -/
  walks : ∀ t a g, c.getters.find? t = some g → g.arrived = false → c.blocks a = none →
    ∃ g' table', (c.happen (.step t a)).getters.find? t = some g' ∧ g'.id = g.id ∧
      g'.accesses = g.accesses + 1 ∧ (c.happen (.step t a)).Presents table' ∧
      g.walk.step table = (g'.walk, table')
  /-- There is room. -/
  room : ∃ a, c.blocks a = none
  /-- It makes two accesses at most for each segment before its own. -/
  accesses : ∀ t g, c.getters.find? t = some g → g.accesses ≤ 2 * (g.id / segmentSize)

/-- What a chain keeps of an earlier one. -/
structure Keeps (c c' : Chain α) : Prop where
  /-- Segments stay at their places. -/
  grows : ∀ k a, c.segmentAt k = some a → c'.segmentAt k = some a
  /-- They are the same segments, with the same slots if nothing has been written. -/
  segments : ∀ k a b, c.segmentAt k = some a → c.blocks a = some b →
    ∃ b', c'.blocks a = some b' ∧ b'.serial = b.serial ∧ (c'.writes = c.writes → b'.slots = b.slots)
  /-- What has been written stays written. -/
  writes : c.writes <+: c'.writes
  /-- A look-up that has returned is at the same slot. -/
  returned : ∀ t g, c.getters.find? t = some g → g.arrived = true → c'.getters.find? t = some g
  /-- What has been freed is not freed again. -/
  freed : c.freed <:+ c'.freed

/-- What becomes of the segments that look-ups make. -/
structure Frees (c : Chain α) : Prop where
  /-- A segment that a look-up has not linked is not in the chain. -/
  apart : ∀ t g mine, c.getters.find? t = some g → g.point = .link mine → ∀ k, c.segmentAt k ≠ some mine
  /-- A look-up that comes too late frees its own. -/
  late : ∀ t a g mine b, c.getters.find? t = some g → g.point = .link mine →
    c.blocks g.place = some b → b.next ≠ none → ∃ own, c.blocks mine = some own ∧
      (c.happen (.step t a)).blocks mine = none ∧
      (c.happen (.step t a)).freed = own.serial :: c.freed
  /-- A segment of the chain has not been freed. -/
  linked : ∀ k a b, c.segmentAt k = some a → c.blocks a = some b → b.serial ∉ c.freed
  once : c.freed.Nodup

/-- How long the chain is, and what goes with it. -/
structure Ends (c : Chain α) (table : SegmentTable α) : Prop where
  count : c.segmentCount = Part.some table.count
  /-- It is no longer than the look-ups have asked for. -/
  longest : c.Quiet → IsGreatest {n | Wanted c.getters n} table.count
  /-- Every segment that has been made is in it, or has been freed. -/
  spent : c.Quiet → ∀ n < c.made, n ∈ c.freed ∨
    ∃ k a b, c.segmentAt k = some a ∧ c.blocks a = some b ∧ b.serial = n
  /-- All slots go, each once, and nothing is left. -/
  drops : c.Quiet → ∃ dropped c', c.drop = Part.some (c', dropped) ∧ (dropped.map (·.serial)).Nodup ∧
    dropped.flatMap (·.slots.toList) = table.slots ∧ ∀ a, c'.blocks a = none
  slots : table.slots.length = segmentSize * table.count

omit [Inhabited α] in
theorem length_slots (table : SegmentTable α) : table.slots.length = segmentSize * table.count := by
  simp [SegmentTable.slots, SegmentTable.count, List.length_flatMap, Nat.mul_add, Nat.mul_comm]

/-! ## What look-ups find -/

namespace Inv

section

variable (h : c.Inv l spot table)
include h

theorem presents : c.Presents table := by
  intro k
  rw [h.strung.segmentAt_eq, h.shows]

theorem arrived (hf : c.getters.find? t = some g) (harrived : g.arrived = true) :
    g.On l (g.id / segmentSize) ∧ g.rest = g.id % segmentSize := by
  obtain ⟨k, hk⟩ := h.on t g hf
  have hid := hk.id
  simp only [Getter.arrived, decide_eq_true_eq] at harrived
  obtain rfl : k = g.id / segmentSize := by
    simp only [segmentSize] at hid harrived ⊢
    omega
  refine ⟨hk, ?_⟩
  simp only [segmentSize] at hid harrived ⊢
  omega

theorem slot_eq_iff {u : Nat} {g' : Getter} (hf : c.getters.find? t = some g) (hg : g.arrived = true)
    (hf' : c.getters.find? u = some g') (hg' : g'.arrived = true) :
    (g.place = g'.place ∧ g.rest = g'.rest) ↔ g.id = g'.id := by
  obtain ⟨hon, hrest⟩ := h.arrived hf hg
  obtain ⟨hon', hrest'⟩ := h.arrived hf' hg'
  constructor
  · rintro ⟨hplace, hr⟩
    have hdiv : g.id / segmentSize = g'.id / segmentSize := by
      have hlt := (List.getElem?_eq_some_iff.1 hon.place).1
      exact (List.getElem?_inj hlt h.strung.once).1 (by rw [hon.place, hon'.place, hplace])
    have hmod : g.id % segmentSize = g'.id % segmentSize := by rw [← hrest, ← hrest', hr]
    rw [← Nat.div_add_mod g.id segmentSize, hdiv, hmod, Nat.div_add_mod]
  · intro hid
    have hplace : some g.place = some g'.place := by rw [← hon.place, ← hon'.place, hid]
    exact ⟨Option.some.inj hplace, by rw [hrest, hrest', hid]⟩

theorem slot_holds (hf : c.getters.find? t = some g) (hg : g.arrived = true) :
    ∃ b, c.blocks g.place = some b ∧ b.slots[g.rest]? = some (written c.writes g.id) := by
  obtain ⟨hon, -⟩ := h.arrived hf hg
  obtain ⟨b, hb, -⟩ := h.strung.link _ _ hon.place
  have hlt : g.rest < segmentSize := by simpa [Getter.arrived] using hg
  have hsegment : table.segment? (g.id / segmentSize) = some b.slots := by
    simp [h.shows (g.id / segmentSize), hon.place, hb]
  have hget := get_of_segment? hsegment hlt
  rw [← hon.id, h.contents] at hget
  exact ⟨b, hb, by rw [Vector.getElem?_eq_getElem hlt, hget]⟩

/-- Whether there is a next segment, as the walk along the table sees it. -/
theorem next_iff (hon : g.On l k) (hb : c.blocks g.place = some b) :
    b.next = none ↔ ¬ g.walk.place < table.appended.size := by
  have hcount : table.appended.size + 1 = l.length := h.count_eq
  have hlt := (List.getElem?_eq_some_iff.1 hon.place).1
  rw [h.strung.last hon.place hb, hon.walk_place]
  omega

/-- An access of a look-up is a step of its walk. -/
theorem walk (hf : c.getters.find? t = some g) (hfar : g.arrived = false) (ha : c.blocks a = none) :
    ∃ g' table', (c.happen (.step t a)).getters.find? t = some g' ∧ g'.id = g.id ∧
      g'.accesses = g.accesses + 1 ∧ (c.happen (.step t a)).Presents table' ∧
      g.walk.step table = (g'.walk, table') := by
  obtain ⟨k, hon⟩ := h.on t g hf
  obtain ⟨b, hb, -⟩ := h.strung.link k _ hon.place
  have hrest : ¬ g.rest < segmentSize := by simpa [Getter.arrived] using hfar
  have hnext := h.next_iff hon hb
  have hwalk := hon.walk_advance hfar
  have hfind : ∀ (c : Chain α) g', (c.goOn t g').getters.find? t = some g' := fun c g' => by
    simp [Chain.goOn, Flights.find?_insert]
  have haccess : c.happen (.step t a) = c.access t g b a := by simp [happen, hf, hb, hfar]
  have hlook : g.walk.rest = g.rest := rfl
  rw [haccess]
  unfold access
  cases hp : g.point with
  | load =>
    have hpoint : g.walk.point = .look := by simp [Getter.walk, hp]
    cases hn : b.next with
    | some next =>
      have hlt : g.walk.place < table.appended.size := by simpa [hn] using hnext
      exact ⟨_, table, hfind .., rfl, rfl, (h.follow hf hp hfar hb hn).presents,
        by simp [Walk.step, hpoint, hlook, hrest, hlt, hwalk]⟩
    | none =>
      have hend : ¬ g.walk.place < table.appended.size := hnext.1 hn
      dsimp only
      rw [if_pos ha]
      exact ⟨_, table, hfind .., rfl, rfl, (h.make hf hp hfar ha).presents,
        by simp [Walk.step, hpoint, hlook, hrest, hend]; rfl⟩
  | link mine =>
    have hpoint : g.walk.point = .link := by simp [Getter.walk, hp]
    cases hn : b.next with
    | some next =>
      have hlt : g.walk.place < table.appended.size := by simpa [hn] using hnext
      exact ⟨_, table, hfind .., rfl, rfl, (h.lose hf hp hfar hb hn).presents,
        by simp [Walk.step, hpoint, hlt, hwalk]⟩
    | none =>
      have hend : ¬ g.walk.place < table.appended.size := hnext.1 hn
      exact ⟨_, _, hfind .., rfl, rfl, (h.win hf hp hfar hb hn).presents,
        by simp [Walk.step, hpoint, hend, hwalk]⟩

/-- There are no more segments than have been made. -/
theorem room : ∃ a, c.blocks a = none := by
  by_contra hnone
  have hthere : ∀ a, ∃ b, c.blocks a = some b := fun a =>
    Option.ne_none_iff_exists'.1 fun ha => hnone ⟨a, ha⟩
  choose block hblock using hthere
  refine not_injective_infinite_finite
    (fun a => (⟨(block a).serial, (h.numbered.known a _ (hblock a)).1⟩ : Fin c.made)) fun a a' he => ?_
  exact h.numbered.apart a a' _ _ (hblock a) (hblock a') (Fin.mk.inj he)

theorem accesses_le (hf : c.getters.find? t = some g) : g.accesses ≤ 2 * (g.id / segmentSize) := by
  obtain ⟨k, hon⟩ := h.on t g hf
  have hid := hon.id
  have haccesses := hon.accesses
  by_cases hp : g.point = .load
  · rw [if_pos hp] at haccesses
    simp only [segmentSize] at hid ⊢
    omega
  · have hrest := hon.further hp
    rw [if_neg hp] at haccesses
    simp only [segmentSize] at hid hrest ⊢
    omega

theorem returns : c.Returns table where
  slot t g hf hg := by
    obtain ⟨hon, hrest⟩ := h.arrived hf hg
    exact ⟨(h.strung.segmentAt_eq _).trans hon.place, hrest⟩
  same t g u g' hf hg hf' hg' := h.slot_eq_iff hf hg hf' hg'
  holds t g hf hg := h.slot_holds hf hg
  walks t a g hf hfar ha := h.walk hf hfar ha
  room := h.room
  accesses t g hf := h.accesses_le hf

end

/-! ## What is kept -/

end Inv

omit [Inhabited α] in
theorem Keeps.refl (c : Chain α) : c.Keeps c where
  grows _ _ hk := hk
  segments _ _ b _ hb := ⟨b, hb, rfl, fun _ => rfl⟩
  writes := List.prefix_rfl
  returned _ _ hf _ := hf
  freed := List.suffix_rfl

omit [Inhabited α] in
theorem Keeps.trans (h : c.Keeps c') (h' : c'.Keeps c'') : c.Keeps c'' where
  grows k a hk := h'.grows k a (h.grows k a hk)
  segments k a b hk hb := by
    obtain ⟨b', hb', hserial, hslots⟩ := h.segments k a b hk hb
    obtain ⟨b'', hb'', hserial', hslots'⟩ := h'.segments k a b' (h.grows k a hk) hb'
    refine ⟨b'', hb'', hserial'.trans hserial, fun hsame => ?_⟩
    -- nothing was written in between if nothing has been written in the end
    have hmid : c'.writes = c.writes :=
      (h.writes.eq_of_length_le (hsame ▸ h'.writes).length_le).symm
    rw [hslots' (hsame.trans hmid.symm), hslots hmid]
  writes := h.writes.trans h'.writes
  returned t g hf hg := h'.returned t g (h.returned t g hf hg) hg
  freed := h.freed.trans h'.freed

theorem writes_foldl {later : List (Event α)} (hl : ∀ t f, Event.write t f ∉ later) :
    (later.foldl happen c).writes = c.writes := by
  induction later generalizing c with
  | nil => rfl
  | cons e later ih =>
    have hstep : (c.happen e).writes = c.writes := by
      generalize hc : c.happen e = c'
      cases hc ▸ c.goes e with
      | writes => exact absurd (List.mem_cons_self ..) (hl _ _)
      | stays | begins | follows | makes | wins | loses => rfl
    exact (ih fun t f hm => hl t f (List.mem_cons_of_mem _ hm)).trans hstep

theorem Goes.writes_prefix (hg : c.Goes e c') : c.writes <+: c'.writes := by
  cases hg with
  | writes => exact List.prefix_append ..
  | stays | begins | follows | makes | wins | loses => exact List.prefix_rfl

theorem Goes.freed_suffix (hg : c.Goes e c') : c.freed <:+ c'.freed := by
  cases hg with
  | loses => exact List.suffix_append ..
  | stays | begins | follows | makes | wins | writes => exact List.suffix_rfl

omit [Inhabited α] in
theorem find?_goOn_of_arrived {u : Nat} {g g' : Getter}
    (hfar : ∀ g, c.getters.find? t = some g → g.arrived = false) (hu : c.getters.find? u = some g)
    (hg : g.arrived = true) : (c.goOn t g').getters.find? u = some g := by
  have hne : u ≠ t := by
    rintro rfl
    simp [hfar g hu] at hg
  simp [goOn, Flights.find?_insert, hne, hu]

theorem Goes.returned {u : Nat} (hg : c.Goes e c') (hu : c.getters.find? u = some g)
    (harrived : g.arrived = true) : c'.getters.find? u = some g := by
  have hone : ∀ {t g}, c.getters.find? t = some g → g.arrived = false →
      ∀ g', c.getters.find? t = some g' → g'.arrived = false := by
    intro t g hf hfar g' hf'
    cases hf.symm.trans hf'
    exact hfar
  cases hg with
  | stays | writes => exact hu
  | begins hnew => exact find?_goOn_of_arrived (by simp [hnew]) hu harrived
  | follows hf hfar => exact find?_goOn_of_arrived (hone hf hfar) hu harrived
  | makes hf hfar => exact find?_goOn_of_arrived (c := c.make _) (hone hf hfar) hu harrived
  | wins hf hfar => exact find?_goOn_of_arrived (c := c.put _ _) (hone hf hfar) hu harrived
  | loses hf hfar => exact find?_goOn_of_arrived (c := c.release _) (hone hf hfar) hu harrived

omit [Inhabited α] in
theorem exists_put_eq {place : Address} {b' d : Block α} {p : Prop} (hb : c.blocks place = some b)
    (hd : c.blocks a = some d) (hserial : b'.serial = b.serial) (hslots : p → b'.slots = b.slots) :
    ∃ d', (c.put place (some b')).blocks a = some d' ∧ d'.serial = d.serial ∧
      (p → d'.slots = d.slots) := by
  by_cases hplace : a = place
  · subst hplace
    cases hb.symm.trans hd
    exact ⟨b', Function.update_self .., hserial, hslots⟩
  · exact ⟨d, by simpa [hplace] using hd, rfl, fun _ => rfl⟩

namespace Inv

variable (h : c.Inv l spot table)
include h

/-- A segment of the chain is the same afterwards, with the same slots if nothing has been written. -/
theorem segment_goes {d : Block α} (hg : c.Goes e c') (hm : a ∈ l) (hd : c.blocks a = some d) :
    ∃ d', c'.blocks a = some d' ∧ d'.serial = d.serial ∧ (c'.writes = c.writes → d'.slots = d.slots) := by
  cases hg with
  | stays | begins | follows => exact ⟨d, hd, rfl, fun _ => rfl⟩
  | makes hf hfar hp hb hn ha =>
    refine ⟨d, ?_, rfl, fun _ => rfl⟩
    rw [blocks_goOn, blocks_make, Function.update_of_ne, hd]
    rintro rfl
    cases ha.symm.trans hd
  | wins hf hfar hp hb hn =>
    exact exists_put_eq hb hd rfl fun _ => rfl
  | loses hf hfar hp hb hn =>
    refine ⟨d, ?_, rfl, fun _ => rfl⟩
    rw [blocks_goOn, blocks_release, Function.update_of_ne, hd]
    rintro rfl
    exact h.placed.not_mem hf hp hm
  | writes hf harrived hb =>
    exact exists_put_eq hb hd rfl fun hsame => by simp at hsame

theorem keeps_goes (hg : c.Goes e c') : c.Keeps c' := by
  obtain ⟨l', spot', table', h', hl⟩ := h.goes hg
  refine ⟨fun k a hk => ?_, fun k a b hk hb => h.segment_goes hg ?_ hb, hg.writes_prefix,
    fun _ _ => hg.returned, hg.freed_suffix⟩
  · rw [h.strung.segmentAt_eq] at hk
    obtain ⟨r, rfl⟩ := hl
    rw [h'.strung.segmentAt_eq, List.getElem?_append_left (List.getElem?_eq_some_iff.1 hk).1, hk]
  · rw [h.strung.segmentAt_eq] at hk
    exact List.mem_of_getElem? hk

theorem keeps (later : List (Event α)) : c.Keeps (later.foldl happen c) := by
  induction later generalizing c l spot table with
  | nil => exact .refl c
  | cons e later ih =>
    obtain ⟨l', spot', table', h', -⟩ := h.goes (c.goes e)
    exact (h.keeps_goes (c.goes e)).trans (ih h')

/-! ## Segments made in vain -/

theorem frees : c.Frees where
  apart t g mine hf hp k hk := by
    rw [h.strung.segmentAt_eq] at hk
    exact h.placed.not_mem hf hp (List.mem_of_getElem? hk)
  late t a g mine b hf hp hb hn := by
    obtain ⟨own, hown⟩ := h.placed.there hf hp
    obtain ⟨next, hn⟩ := Option.ne_none_iff_exists'.1 hn
    obtain ⟨k, hon⟩ := h.on t g hf
    have hfar : g.arrived = false := by
      simpa [Getter.arrived] using hon.further (by simp [hp])
    have haccess : c.happen (.step t a) = (c.release mine).goOn t (g.advance next) := by
      simp [happen, hf, hb, hfar, access, hp, hn]
    rw [haccess]
    exact ⟨own, hown, by simp, by simp [Chain.goOn, Chain.release, hown]⟩
  linked _ a b _ hb := (h.numbered.known a b hb).2
  once := h.numbered.once

end Inv

/-! ## The length of the chain, and its end -/

namespace Inv

variable (h : c.Inv l spot table)
include h

theorem segmentCount_eq : c.segmentCount = Part.some table.count := by
  obtain ⟨bs, hbs⟩ := h.strung.leads
  have hcount := h.count_eq
  cases hbs with
  | more hb hrest =>
    rw [segmentCount, hb, Part.coe_some, Part.bind_eq_bind, Part.bind_some, hrest.countFrom_eq, hcount,
      List.length_cons, Nat.add_comm]

/-- Without a look-up under way, the chain is as long as the furthest id needs. -/
theorem longest (hq : c.Quiet) : IsGreatest {n | Wanted c.getters n} table.count := by
  have hle : ∀ n, Wanted c.getters n → n ≤ table.count := by
    rintro n (rfl | ⟨t, g, hf, rfl⟩)
    · exact Nat.le_add_left ..
    · obtain ⟨hon, -⟩ := h.arrived hf (hq t g hf)
      rw [h.count_eq]
      exact (List.getElem?_eq_some_iff.1 hon.place).1
  obtain ⟨n, hn, hlen⟩ := h.wanted
  obtain rfl : n = table.count := Nat.le_antisymm (hle n hn) (h.count_eq ▸ hlen)
  exact ⟨hn, hle⟩

/-- Without a look-up under way, there is nothing but the chain. -/
theorem mem_of_quiet (hq : c.Quiet) (hb : c.blocks a = some b) : a ∈ l := by
  rw [h.placed.linked]
  cases hs : spot a with
  | linked => rfl
  | free =>
    rw [(h.placed.free a).2 hs] at hb
    cases hb
  | own t =>
    obtain ⟨g, hf, hp⟩ := (h.placed.own a t).1 hs
    obtain ⟨k, hon⟩ := h.on t g hf
    have hfar := hon.further (by simp [hp])
    have hnear := hq t g hf
    simp only [Getter.arrived, decide_eq_true_eq] at hnear
    omega

theorem spent (hq : c.Quiet) {n : Nat} (hn : n < c.made) : n ∈ c.freed ∨
    ∃ k a b, c.segmentAt k = some a ∧ c.blocks a = some b ∧ b.serial = n := by
  refine (h.numbered.kept n hn).imp id fun hlies => ?_
  obtain ⟨a, b, hb, hserial⟩ := hlies
  obtain ⟨k, hk⟩ := List.mem_iff_getElem?.1 (h.mem_of_quiet hq hb)
  exact ⟨k, a, b, (h.strung.segmentAt_eq k).trans hk, hb, hserial⟩

/-- All slots go, each once, and nothing is left. -/
theorem drops (hq : c.Quiet) : ∃ dropped c', c.drop = Part.some (c', dropped) ∧
    (dropped.map (·.serial)).Nodup ∧ dropped.flatMap (·.slots.toList) = table.slots ∧
    ∀ a, c'.blocks a = none := by
  obtain ⟨bs, hbs⟩ := h.strung.leads
  have hget := hbs.getElem?
  cases hbs with
  | @more _ b r bs hb hrest =>
    refine ⟨_, _, (Leads.more hb hrest).drop_eq h.strung.once, ?_, ?_, fun a => ?_⟩
    · have hperm : (bs ++ [b]).Perm (b :: bs) := List.perm_append_singleton ..
      exact (hperm.map _).nodup_iff.2 ((Leads.more hb hrest).nodup_serials h.strung.once h.numbered)
    · have happended : bs.map (·.slots) = table.appended.toList := by
        refine List.ext_getElem? fun k => ?_
        have hsegment := h.shows (k + 1)
        have hblock := hget (k + 1)
        simp only [segment?, List.getElem?_cons_succ] at hsegment hblock
        simp [hblock, hsegment, Option.map_bind]
      have hhead : b.slots = table.head := by
        have hsegment := h.shows 0
        simpa [segment?, hb, eq_comm] using hsegment
      simp [slots, ← happended, ← hhead, List.flatMap_map]
    · by_cases ha : a ∈ c.head :: r
      · exact if_pos ha
      · refine (if_neg ha).trans ?_
        by_contra hthere
        obtain ⟨b, hb⟩ := Option.ne_none_iff_exists'.1 hthere
        exact ha (h.mem_of_quiet hq hb)

theorem ends : c.Ends table where
  count := h.segmentCount_eq
  longest := h.longest
  spent hq _ hn := h.spent hq hn
  slots := length_slots table
  drops := h.drops

end Inv

/-- However look-ups of any ids race, the chain is a table in which each has found the slot of its id. -/
theorem run_stable (head : Address) (events : List (Event α)) : ∃ table,
    (run head events).Presents table ∧ (run head events).Returns table ∧ (run head events).Frees ∧
    (run head events).Ends table ∧ ∀ later : List (Event α),
      (run head events).Keeps (later.foldl happen (run head events)) ∧
      ((∀ t f, Event.write t f ∉ later) →
        (later.foldl happen (run head events)).writes = (run head events).writes) := by
  obtain ⟨l, spot, table, h⟩ := run_inv head events
  exact ⟨table, h.presents, h.returns, h.frees, h.ends, fun later => ⟨h.keeps later, writes_foldl⟩⟩

/-- Two look-ups race for the second segment. -/
def race : List (Event Nat) :=
  [.get 0 16, .get 1 40, .step 0 128, .step 1 192, .step 0 0, .write 0 (· + 7), .step 1 0, .step 1 192,
    .step 1 0, .write 1 (· + 9)]

/-- The late one frees its segment and goes on to the other's, and the address is used again. -/
example : (run 64 race).segmentAt 1 = some 128 ∧ (run 64 race).segmentAt 2 = some 192 ∧
    (run 64 race).freed = [2] ∧ ((run 64 race).blocks 192).map (·.slots[8]) = some 9 := by
  decide

end BackoffStack.SegmentTable.Chain
