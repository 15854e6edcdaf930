/-
What one access of a look-up does to the chain of segments.

The chain shows a table (`Chain.Inv`): its segments are linked one after another, every look-up is at the
segment that lies as many places before its own as it still has to go, and each fresh segment belongs to the
look-up that has made it. An event moves this in one of seven ways (`Chain.Goes`). Only one of them makes
the chain longer, at its end, and it takes the table where a walk takes it.
-/
import BackoffStack.Proofs.Segment.Slots
import BackoffStack.Proofs.Segment.Spots

namespace BackoffStack.SegmentTable

variable {α : Type}

theorem segment?_push (table : SegmentTable α) (s : Segment α) (k : Nat) :
    ({ table with appended := table.appended.push s } : SegmentTable α).segment? k =
      if k = table.count then some s else table.segment? k := by
  cases k with
  | zero => simp [segment?, count]
  | succ k => simp [segment?, count, Array.getElem?_push]

theorem changeSlot_congr (s : Segment α) {id j : Nat} (f : α → α)
    (h : id % segmentSize = j % segmentSize) : changeSlot s id f = changeSlot s j f := by
  simp only [changeSlot, h]

/-- A look-up is at a place of the chain. -/
structure Getter.On (g : Getter) (l : List Address) (k : Nat) : Prop where
  place : l[k]? = some g.place
  id : g.id = segmentSize * k + g.rest
  /-- It has made two accesses at most for each segment behind it, and one if it is about to set a link. -/
  accesses : g.accesses ≤ 2 * k + if g.point = .load then 0 else 1
  further : g.point ≠ .load → segmentSize ≤ g.rest

namespace Getter.On

variable {g g' : Getter} {l l' : List Address} {k : Nat} {next : Address}

theorem mono (h : g.On l k) (hl : l <+: l') : g.On l' k := by
  obtain ⟨r, rfl⟩ := hl
  have hk := (List.getElem?_eq_some_iff.1 h.place).1
  exact ⟨by rw [List.getElem?_append_left hk]; exact h.place, h.id, h.accesses, h.further⟩

theorem advance (h : g.On l k) (hfar : g.arrived = false) (hnext : l[k + 1]? = some next) :
    (g.advance next).On l (k + 1) := by
  have hid := h.id
  have haccesses := h.accesses
  simp only [arrived, decide_eq_false_iff_not] at hfar
  refine ⟨hnext, ?_, ?_, fun hp => absurd rfl hp⟩
  · simp only [Getter.advance, segmentSize] at hid hfar ⊢
    omega
  · simp only [Getter.advance, if_true]
    split at haccesses <;> omega

theorem link (h : g.On l k) (hfar : g.arrived = false) (hload : g.point = .load) (a : Address) :
    ({ g with point := .link a, accesses := g.accesses + 1 } : Getter).On l k := by
  have haccesses := h.accesses
  rw [if_pos hload] at haccesses
  simp only [arrived, decide_eq_false_iff_not, Nat.not_lt] at hfar
  exact ⟨h.place, h.id, by simpa using haccesses, fun _ => hfar⟩

theorem walk_place (h : g.On l k) : g.walk.place = k := by
  have hid := h.id
  simp only [walk, segmentSize] at hid ⊢
  omega

theorem walk_advance (h : g.On l k) (hfar : g.arrived = false) (next : Address) :
    (g.advance next).walk = g.walk.advance := by
  have hplace : (g.id - (g.rest - segmentSize)) / segmentSize = (g.id - g.rest) / segmentSize + 1 := by
    have hid := h.id
    simp only [arrived, decide_eq_false_iff_not] at hfar
    simp only [segmentSize] at hid hfar ⊢
    omega
  simp [walk, Getter.advance, Walk.advance, hplace]

end Getter.On

namespace Chain

/-- What one event can do. -/
inductive Goes [Inhabited α] (c : Chain α) : Event α → Chain α → Prop
  | stays {e} : Goes c e c
  | begins {t id} (new : c.getters.find? t = none) :
      Goes c (.get t id) (c.goOn t { id, place := c.head, rest := id })
  /-- A look-up goes on to the next segment. -/
  | follows {t a g b next} (flight : c.getters.find? t = some g) (far : g.arrived = false)
      (point : g.point = .load) (block : c.blocks g.place = some b) (link : b.next = some next) :
      Goes c (.step t a) (c.goOn t (g.advance next))
  /-- A look-up sees no next segment, and makes one. -/
  | makes {t a g b} (flight : c.getters.find? t = some g) (far : g.arrived = false)
      (point : g.point = .load) (block : c.blocks g.place = some b) (link : b.next = none)
      (free : c.blocks a = none) :
      Goes c (.step t a) ((c.make a).goOn t { g with point := .link a, accesses := g.accesses + 1 })
  /-- A look-up links its segment to the last one, and goes on to it. -/
  | wins {t a g b mine} (flight : c.getters.find? t = some g) (far : g.arrived = false)
      (point : g.point = .link mine) (block : c.blocks g.place = some b) (link : b.next = none) :
      Goes c (.step t a)
        ((c.put g.place (some { b with next := some mine })).goOn t (g.advance mine))
  /-- A look-up finds that it is too late, frees its segment, and goes on to the other's. -/
  | loses {t a g b mine next} (flight : c.getters.find? t = some g) (far : g.arrived = false)
      (point : g.point = .link mine) (block : c.blocks g.place = some b) (link : b.next = some next) :
      Goes c (.step t a) ((c.release mine).goOn t (g.advance next))
  /-- A slot is changed by whoever has looked it up. -/
  | writes {t f g b} (flight : c.getters.find? t = some g) (arrived : g.arrived = true)
      (block : c.blocks g.place = some b) :
      Goes c (.write t f) { c.put g.place (some { b with slots := changeSlot b.slots g.rest f }) with
        writes := c.writes ++ [(g.id, f)] }

variable [Inhabited α] {c c' : Chain α} {l l' : List Address} {spot : Address → Spot}
  {table : SegmentTable α} {getters : Flights Getter} {t u k : Nat} {g g' : Getter}
  {a mine next : Address} {b : Block α}

theorem on_insert (hl : l <+: l') (hold : ∀ u g, getters.find? u = some g → ∃ k, g.On l k)
    (hnew : ∃ k, g'.On l' k) (hu : (getters.insert t g').find? u = some g) : ∃ k, g.On l' k := by
  rw [Flights.find?_insert] at hu
  split at hu
  · cases hu
    exact hnew
  · exact (hold u g hu).imp fun k h => h.mono hl

/-- What has been done to the slot of an id, one after another. -/
def written (writes : List (Nat × (α → α))) (id : Nat) : α :=
  (writes.filter (·.1 == id)).foldl (fun v w => w.2 v) default

theorem written_concat (writes : List (Nat × (α → α))) (id j : Nat) (f : α → α) :
    written (writes ++ [(id, f)]) j = if j = id then f (written writes j) else written writes j := by
  by_cases hj : j = id
  · subst hj
    simp [written]
  · simp [written, hj, Ne.symm hj]

/-- The longest chain that look-ups have asked for so far. -/
def Wanted (getters : Flights Getter) (n : Nat) : Prop :=
  n = 1 ∨ ∃ t g, getters.find? t = some g ∧ n = g.id / segmentSize + 1

omit [Inhabited α] in
theorem wanted_insert {m : Nat} (h : ∃ n, Wanted getters n ∧ m ≤ n)
    (hid : ∀ g, getters.find? t = some g → g'.id = g.id) :
    ∃ n, Wanted (getters.insert t g') n ∧ m ≤ n := by
  obtain ⟨n, hw, hle⟩ := h
  rcases hw with hone | ⟨u, g, hg, hn⟩
  · exact ⟨n, .inl hone, hle⟩
  · by_cases hu : u = t
    · subst hu
      exact ⟨n, .inr ⟨u, g', by simp [Flights.find?_insert], by rw [hn, hid g hg]⟩, hle⟩
    · exact ⟨n, .inr ⟨u, g, by simp [Flights.find?_insert, hu, hg], hn⟩, hle⟩

/-- The segments at these addresses are those of a table. -/
def Shows (blocks : Address → Option (Block α)) (l : List Address) (table : SegmentTable α) : Prop :=
  ∀ k, table.segment? k = (l[k]?).bind fun a => (blocks a).map (·.slots)

omit [Inhabited α] in
theorem Shows.congr {blocks blocks' : Address → Option (Block α)} (h : Shows blocks l table)
    (hn : ∀ a ∈ l, (blocks' a).map (·.slots) = (blocks a).map (·.slots)) : Shows blocks' l table := by
  intro k
  rw [h k]
  cases ha : l[k]? with
  | none => rfl
  | some a => exact (hn a (List.mem_of_getElem? ha)).symm

omit [Inhabited α] in
/-- The chain has another segment, and nothing else has changed. -/
theorem Shows.push {blocks blocks' : Address → Option (Block α)} {s : Segment α} (h : Shows blocks l table)
    (hcount : table.count = l.length)
    (hold : ∀ a ∈ l, (blocks' a).map (·.slots) = (blocks a).map (·.slots))
    (hnew : (blocks' mine).map (·.slots) = some s) :
    Shows blocks' (l ++ [mine]) { table with appended := table.appended.push s } := by
  intro k
  rw [segment?_push, hcount]
  by_cases hk : k = l.length
  · simpa [hk] using hnew.symm
  · rw [if_neg hk, h.congr hold k]
    by_cases hlt : k < l.length
    · rw [List.getElem?_append_left hlt]
    · rw [List.getElem?_eq_none (by omega), List.getElem?_eq_none]
      rw [List.length_append, List.length_singleton]
      omega

/-- The segments that look-ups have made, and have not linked, are as they were made. -/
def Unused (blocks : Address → Option (Block α)) (spot : Address → Spot) : Prop :=
  ∀ a t b, spot a = .own t → blocks a = some b → b.slots = fresh ∧ b.next = none

theorem Unused.mono {blocks blocks' : Address → Option (Block α)} {spot' : Address → Spot}
    (h : Unused blocks spot) (hs : ∀ a t, spot' a = .own t → spot a = .own t ∧ blocks' a = blocks a) :
    Unused blocks' spot' := by
  intro a t b ha hb
  obtain ⟨hown, hsame⟩ := hs a t ha
  exact h a t b hown (hsame ▸ hb)

/-- The chain in order: its segments, at these addresses, are those of a table, in which the slots hold what
has been written there. -/
structure Inv (c : Chain α) (l : List Address) (spot : Address → Spot) (table : SegmentTable α) : Prop where
  strung : Strung c.blocks c.head l
  placed : Placed c.blocks c.getters l spot
  numbered : Numbered c.blocks c.made c.freed
  unused : Unused c.blocks spot
  on : ∀ t g, c.getters.find? t = some g → ∃ k, g.On l k
  wanted : ∃ n, Wanted c.getters n ∧ l.length ≤ n
  shows : Shows c.blocks l table
  contents : ∀ id, table.get id = written c.writes id

theorem access_goes (hf : c.getters.find? t = some g) (hfar : g.arrived = false)
    (hb : c.blocks g.place = some b) (a : Address) : c.Goes (.step t a) (c.access t g b a) := by
  unfold access
  cases hp : g.point with
  | load =>
    cases hn : b.next with
    | some next => exact .follows hf hfar hp hb hn
    | none =>
      dsimp only
      split
      · next ha => exact .makes hf hfar hp hb hn ha
      · exact .stays
  | link mine =>
    cases hn : b.next with
    | some next => exact .loses hf hfar hp hb hn
    | none => exact .wins hf hfar hp hb hn

theorem goes (c : Chain α) (e : Event α) : c.Goes e (c.happen e) := by
  cases e with
  | get t id =>
    simp only [happen]
    split
    · exact .stays
    · next hf => exact .begins hf
  | step t a =>
    simp only [happen]
    split
    · next g hf =>
      split
      · next b hb =>
        split
        · exact .stays
        · next hfar => exact access_goes hf (by simpa using hfar) hb a
      · exact .stays
    · exact .stays
  | write t f =>
    simp only [happen]
    split
    · next g hf =>
      split
      · next b hb =>
        split
        · next hfar => exact .writes hf hfar hb
        · exact .stays
      · exact .stays
    · exact .stays

/-! ## What an event preserves -/

namespace Inv

variable (h : c.Inv l spot table)
include h

theorem goOn (hold : ∀ a g, c.getters.find? t = some g → g.point ≠ .link a) (hnew : g'.point = .load)
    (hon : ∃ k, g'.On l k) (hid : ∀ g, c.getters.find? t = some g → g'.id = g.id) :
    (c.goOn t g').Inv l spot table where
  strung := h.strung
  placed := h.placed.goOn (fun _ => Iff.rfl) hold hnew
  numbered := h.numbered
  unused := h.unused
  on _ _ := on_insert List.prefix_rfl h.on hon
  wanted := wanted_insert h.wanted hid
  shows := h.shows
  contents := h.contents

theorem make (hf : c.getters.find? t = some g) (hp : g.point = .load) (hfar : g.arrived = false)
    (ha : c.blocks a = none) :
    ((c.make a).goOn t { g with point := .link a, accesses := g.accesses + 1 }).Inv l
      (Function.update spot a (.own t)) table := by
  have hload : ∀ a g, c.getters.find? t = some g → g.point ≠ .link a := by
    intro a' g' hg'
    cases hf.symm.trans hg'
    simp [hp]
  have hnot : a ∉ l := by
    intro hm
    have hfree := (h.placed.free a).1 ha
    rw [(h.placed.linked a).1 hm] at hfree
    cases hfree
  have hother : ∀ a', a' ∈ l → a' ≠ a := fun a' hm he => hnot (he ▸ hm)
  refine ⟨h.strung.congr fun a' hm => ?_, h.placed.make ha _ hload rfl, h.numbered.make ha _, ?_,
    fun _ _ => on_insert List.prefix_rfl h.on ?_, wanted_insert h.wanted ?_, ?_, h.contents⟩
  · simp [hother a' hm]
  · intro a' u b hs hb
    by_cases haa : a' = a
    · subst haa
      rw [blocks_goOn, blocks_make, Function.update_self] at hb
      cases hb
      exact ⟨rfl, rfl⟩
    · rw [Function.update_of_ne haa] at hs
      exact h.unused a' u b hs (by simpa [haa] using hb)
  · obtain ⟨k, hk⟩ := h.on t g hf
    exact ⟨k, hk.link hfar hp a⟩
  · intro g' hg'
    cases hf.symm.trans hg'
    rfl
  · exact h.shows.congr fun a' hm => by simp [hother a' hm]

/-- The table has as many segments as the chain. -/
theorem count_eq : table.count = l.length := by
  have hsome : ∀ k, k < table.count ↔ k < l.length := by
    intro k
    rw [← decide_eq_true_iff (p := k < table.count), ← isSome_segment?, h.shows k]
    cases ha : l[k]? with
    | none => simpa using List.getElem?_eq_none_iff.1 ha
    | some a =>
      obtain ⟨b, hb, -⟩ := h.strung.link k a ha
      simpa [hb] using (List.getElem?_eq_some_iff.1 ha).1
  have hcount := hsome table.count
  have hlength := hsome l.length
  omega

/-- The link of a segment leads to the next place of the chain. -/
theorem next_eq (hk : l[k]? = some a) (hb : c.blocks a = some b) (hn : b.next = some next) :
    l[k + 1]? = some next := by
  obtain ⟨b', hb', hn'⟩ := h.strung.link k a hk
  cases hb.symm.trans hb'
  rw [← hn', hn]

theorem follow (hf : c.getters.find? t = some g) (hp : g.point = .load) (hfar : g.arrived = false)
    (hb : c.blocks g.place = some b) (hn : b.next = some next) :
    (c.goOn t (g.advance next)).Inv l spot table := by
  obtain ⟨k, hk⟩ := h.on t g hf
  refine h.goOn ?_ rfl ⟨k + 1, hk.advance hfar (h.next_eq hk.place hb hn)⟩ ?_
  · intro a g' hg'
    cases hf.symm.trans hg'
    simp [hp]
  · intro g' hg'
    cases hf.symm.trans hg'
    rfl

theorem win (hf : c.getters.find? t = some g) (hp : g.point = .link mine) (hfar : g.arrived = false)
    (hb : c.blocks g.place = some b) (hn : b.next = none) :
    ((c.put g.place (some { b with next := some mine })).goOn t (g.advance mine)).Inv (l ++ [mine])
      (Function.update spot mine .linked)
      { table with appended := table.appended.push SegmentTable.fresh } := by
  obtain ⟨k, hk⟩ := h.on t g hf
  have hnot := h.placed.not_mem hf hp
  obtain ⟨own, hown⟩ := h.placed.there hf hp
  obtain ⟨hslots, hend⟩ := h.unused mine t own ((h.placed.own mine t).2 ⟨g, hf, hp⟩) hown
  have hlast := (h.strung.last hk.place hb).1 hn
  have hplace : g.place ∈ l := List.mem_of_getElem? hk.place
  have hne : mine ≠ g.place := fun he => hnot (he ▸ hplace)
  refine ⟨h.strung.push hk.place hb hn hnot hown hend, h.placed.settle hf hp rfl (by simp) ?_ ?_,
    h.numbered.congr (map_update hb rfl), h.unused.mono ?_,
    fun _ _ => on_insert (List.prefix_append ..) h.on ?_, ?_,
    h.shows.push h.count_eq (fun a _ => map_update hb (by rfl) a) ?_, ?_⟩
  · intro a
    by_cases ha : a = mine <;> simp [ha]
  · intro a
    by_cases ha : a = mine
    · simp [ha, hne, hown]
    · rw [if_neg ha]
      exact update_eq_none hb _ a
  · intro a u hs
    have hmine : a ≠ mine := by
      rintro rfl
      simp at hs
    rw [Function.update_of_ne hmine] at hs
    exact ⟨hs, Function.update_of_ne (h.placed.ne_of_own hs hplace) ..⟩
  · refine ⟨k + 1, (hk.mono (List.prefix_append ..)).advance hfar ?_⟩
    simp [hlast]
  · -- it has its own slot in the segment that it links, or in one further on
    refine ⟨g.id / segmentSize + 1, .inr ⟨t, g.advance mine, by simp [Chain.goOn, Flights.find?_insert], rfl⟩, ?_⟩
    have hid := hk.id
    have hrest := hk.further (by simp [hp])
    simp only [List.length_append, List.length_singleton, segmentSize] at hid hrest ⊢
    omega
  · simp [hne, hown, hslots]
  · intro id
    have hextend : ({ table with appended := table.appended.push SegmentTable.fresh } : SegmentTable α) =
        table.extend 1 := by
      rw [extend_succ, extend_zero]
    rw [hextend, get_extend]
    exact h.contents id

theorem lose (hf : c.getters.find? t = some g) (hp : g.point = .link mine) (hfar : g.arrived = false)
    (hb : c.blocks g.place = some b) (hn : b.next = some next) :
    ((c.release mine).goOn t (g.advance next)).Inv l (Function.update spot mine .free) table := by
  obtain ⟨k, hk⟩ := h.on t g hf
  have hnot := h.placed.not_mem hf hp
  obtain ⟨own, hown⟩ := h.placed.there hf hp
  have hother : ∀ a, a ∈ l → a ≠ mine := fun a hm he => hnot (he ▸ hm)
  have hnext := h.next_eq hk.place hb hn
  have hfreed : (c.release mine).freed = own.serial :: c.freed := by simp [Chain.release, hown]
  refine ⟨h.strung.congr fun a hm => ?_, h.placed.settle hf hp rfl (by simp) ?_ ?_, ?_, h.unused.mono ?_,
    fun _ _ => on_insert List.prefix_rfl h.on ⟨k + 1, hk.advance hfar hnext⟩, wanted_insert h.wanted ?_,
    h.shows.congr fun a hm => ?_, h.contents⟩
  · simp [hother a hm]
  · intro a
    by_cases ha : a = mine <;> simp [ha, hnot]
  · intro a
    by_cases ha : a = mine <;> simp [ha]
  · show Numbered (Function.update c.blocks mine none) c.made (c.release mine).freed
    rw [hfreed]
    exact h.numbered.release hown
  · intro a u hs
    have hmine : a ≠ mine := by
      rintro rfl
      simp at hs
    rw [Function.update_of_ne hmine] at hs
    exact ⟨hs, Function.update_of_ne hmine ..⟩
  · intro g' hg'
    cases hf.symm.trans hg'
    rfl
  · simp [hother a hm]

theorem write (hf : c.getters.find? t = some g) (harrived : g.arrived = true)
    (hb : c.blocks g.place = some b) (f : α → α) :
    ({ c.put g.place (some { b with slots := changeSlot b.slots g.rest f }) with
      writes := c.writes ++ [(g.id, f)] } : Chain α).Inv l spot (table.modify g.id f) := by
  obtain ⟨k, hk⟩ := h.on t g hf
  have hplace : g.place ∈ l := List.mem_of_getElem? hk.place
  have hlt := (List.getElem?_eq_some_iff.1 hk.place).1
  have hid := hk.id
  have hrest : g.rest < segmentSize := by simpa [Getter.arrived] using harrived
  have hdiv : g.id / segmentSize = k := by
    simp only [segmentSize] at hid hrest ⊢
    omega
  refine ⟨h.strung.congr fun a _ => map_update hb (by rfl) a,
    ⟨h.placed.linked, fun a => (update_eq_none hb _ a).trans (h.placed.free a), h.placed.own⟩,
    h.numbered.congr (map_update hb rfl),
    h.unused.mono fun a u hs => ⟨hs, Function.update_of_ne (h.placed.ne_of_own hs hplace) ..⟩,
    h.on, h.wanted, ?_, ?_⟩
  · intro j
    rw [segment?_modify, hdiv, h.shows j]
    by_cases hj : j = k
    · have hchange : changeSlot b.slots g.id f = changeSlot b.slots g.rest f :=
        changeSlot_congr b.slots f (by rw [hid]; simp)
      simp [hj, hk.place, hb, hchange]
    · rw [if_neg hj]
      cases ha : l[j]? with
      | none => rfl
      | some a =>
        have hne : a ≠ g.place := by
          intro he
          have hjl := (List.getElem?_eq_some_iff.1 ha).1
          exact hj ((List.getElem?_inj hjl h.strung.once).1 (ha.trans (he ▸ hk.place.symm)))
        simp [hne]
  · intro id
    rw [get_modify _ _ _ _ (by rw [hdiv, h.count_eq]; exact hlt), h.contents id]
    exact (written_concat c.writes g.id id f).symm

/-- Whatever happens, the chain is in order again, and goes on where it was. -/
theorem goes {e : Event α} (hg : c.Goes e c') :
    ∃ l' spot' table', c'.Inv l' spot' table' ∧ l <+: l' := by
  cases hg with
  | stays => exact ⟨l, spot, table, h, List.prefix_rfl⟩
  | begins hnew =>
    refine ⟨l, spot, table, h.goOn (by simp [hnew]) rfl ⟨0, h.strung.head, ?_, ?_, ?_⟩ (by simp [hnew]),
      List.prefix_rfl⟩
    · simp
    · simp
    · simp
  | follows hf hfar hp hb hn => exact ⟨l, spot, table, h.follow hf hp hfar hb hn, List.prefix_rfl⟩
  | makes hf hfar hp hb hn ha => exact ⟨l, _, table, h.make hf hp hfar ha, List.prefix_rfl⟩
  | wins hf hfar hp hb hn => exact ⟨_, _, _, h.win hf hp hfar hb hn, List.prefix_append ..⟩
  | loses hf hfar hp hb hn => exact ⟨l, _, table, h.lose hf hp hfar hb hn, List.prefix_rfl⟩
  | writes hf harrived hb => exact ⟨l, spot, _, h.write hf harrived hb _, List.prefix_rfl⟩

theorem foldl (events : List (Event α)) : ∃ l' spot' table',
    (events.foldl Chain.happen c).Inv l' spot' table' ∧ l <+: l' := by
  induction events generalizing c l spot table with
  | nil => exact ⟨l, spot, table, h, List.prefix_rfl⟩
  | cons e events ih =>
    obtain ⟨l₁, spot₁, table₁, h₁, hl₁⟩ := h.goes (c.goes e)
    obtain ⟨l₂, spot₂, table₂, h₂, hl₂⟩ := ih h₁
    exact ⟨l₂, spot₂, table₂, h₂, hl₁.trans hl₂⟩

end Inv

theorem Inv.new (head : Address) : (Chain.new head : Chain α).Inv [head]
    (Function.update (fun _ => .free) head .linked) SegmentTable.new := by
  have hhead : (Chain.new head : Chain α).blocks head = some ⟨0, SegmentTable.fresh, none⟩ := by
    simp [Chain.new]
  have hblock : ∀ a b, (Chain.new head : Chain α).blocks a = some b →
      a = head ∧ b = ⟨0, SegmentTable.fresh, none⟩ := by
    intro a b hb
    by_cases ha : a = head
    · subst ha
      simp only [Chain.new, Function.update_self, Option.some.injEq] at hb
      exact ⟨rfl, hb.symm⟩
    · simp [Chain.new, ha] at hb
  constructor
  · refine ⟨rfl, fun k a ha => ?_, List.nodup_singleton head⟩
    obtain ⟨hk, rfl⟩ : k = 0 ∧ head = a := by simpa [List.getElem?_singleton] using ha
    exact ⟨_, hhead, by simp [hk]⟩
  · refine ⟨fun a => ?_, fun a => ?_, fun a t => ?_⟩
    · by_cases ha : a = head <;> simp [ha]
    · by_cases ha : a = head <;> simp [Chain.new, ha]
    · by_cases ha : a = head <;> simp [Chain.new, Flights.find?, ha]
  · refine ⟨fun a b hb => ?_, fun a a' b b' hb hb' _ => ?_, by simp [Chain.new], by simp [Chain.new],
      fun n hn => ?_⟩
    · simp [(hblock a b hb).2, Chain.new]
    · exact (hblock a b hb).1.trans (hblock a' b' hb').1.symm
    · have hzero : n = 0 := by simpa [Chain.new] using hn
      exact .inr ⟨head, _, hhead, hzero.symm⟩
  · intro a t b hs
    by_cases ha : a = head <;> simp [ha] at hs
  · intro t g hg
    cases hg
  · exact ⟨1, .inl rfl, Nat.le_refl 1⟩
  · intro k
    cases k with
    | zero => simp [Chain.new, SegmentTable.new, segment?]
    | succ k => simp [SegmentTable.new, segment?]
  · intro id
    exact get_new id

theorem run_inv (head : Address) (events : List (Event α)) :
    ∃ l spot table, (run head events).Inv l spot table := by
  obtain ⟨l, spot, table, h, -⟩ := (Inv.new head).foldl events
  exact ⟨l, spot, table, h⟩

end Chain

end BackoffStack.SegmentTable
