/-
What one pass over a waiting list does to the nodes in memory.

The invariant of the pass (`Pass.Holds`) is that the nodes that stay and those that are still to be looked at
make one list, which begins at the pseudo head, and that the nodes to be freed make another. Each turn moves
one node, so the pass ends with the list parted as `Store.sift` parts it. Handing over and freeing are then
a matter of one link and of one list.
-/
import BackoffStack.Proofs.Hazard.Links
import Mathlib.Data.List.Induction
import Mathlib.Data.List.Nodup

namespace BackoffStack

variable {ι : Type}

/-- Nodes with the places where they lie. -/
abbrev Places (ι : Type) := List (Address × Waiting ι)

namespace Places

/-- Where the first node lies. -/
def start (l : Places ι) : Option Address := l.head?.map (·.1)

/-- The places. -/
def addresses (l : Places ι) : List Address := l.map (·.1)

/-- The links lead through these nodes, and end at the last. -/
def Strung (nodes : Address → Option (Linked ι)) : Places ι → Prop
  | [] => True
  | (a, w) :: l => nodes a = some ⟨w, start l⟩ ∧ Strung nodes l

/-- The nodes that can be freed once nobody looks at an older version. -/
def due (version : Nat) (l : Places ι) : Places ι := l.filter (·.2.version ≤ version)

/-- The nodes that are too new. -/
def newer (version : Nat) (l : Places ι) : Places ι := l.filter (version < ·.2.version)

@[simp] theorem start_nil : start ([] : Places ι) = none := rfl

@[simp] theorem start_cons (p : Address × Waiting ι) (l : Places ι) : start (p :: l) = some p.1 := rfl

@[simp] theorem addresses_nil : addresses ([] : Places ι) = [] := rfl

@[simp] theorem addresses_cons (p : Address × Waiting ι) (l : Places ι) :
    addresses (p :: l) = p.1 :: addresses l := rfl

@[simp] theorem addresses_append (l l' : Places ι) :
    addresses (l ++ l') = addresses l ++ addresses l' := List.map_append

theorem start_append_cons (l r : Places ι) (p : Address × Waiting ι) :
    start (l ++ p :: r) = start (l ++ [p]) := by
  cases l <;> rfl

variable {nodes nodes' : Address → Option (Linked ι)} {l r : Places ι} {a : Address} {w : Waiting ι}

/-- A list is strung as long as its own nodes stay as they are. -/
theorem Strung.congr (h : Strung nodes l) (hn : ∀ b ∈ addresses l, nodes' b = nodes b) :
    Strung nodes' l := by
  induction l with
  | nil => trivial
  | cons p l ih =>
    obtain ⟨hp, hl⟩ := h
    refine ⟨(hn p.1 (by simp)).trans hp, ih hl fun b hb => hn b ?_⟩
    simp [hb]

theorem Strung.update (h : Strung nodes l) (ha : a ∉ addresses l) (node : Option (Linked ι)) :
    Strung (Function.update nodes a node) l := by
  refine h.congr fun b hb => Function.update_of_ne ?_ ..
  intro he
  exact ha (he ▸ hb)

theorem Strung.right (h : Strung nodes (l ++ r)) : Strung nodes r := by
  induction l with
  | nil => exact h
  | cons p l ih => exact ih h.2

theorem Strung.link_eq (h : Strung nodes (l ++ (a, w) :: r)) : nodes a = some ⟨w, start r⟩ := h.right.1

/-- A node of a list is linked to another rest, which is strung itself. -/
theorem Strung.relink {r' : Places ι} (h : Strung nodes (l ++ (a, w) :: r)) (hl : a ∉ addresses l)
    (hr : a ∉ addresses r') (hr' : Strung nodes r') :
    Strung (Function.update nodes a (some ⟨w, start r'⟩)) (l ++ (a, w) :: r') := by
  induction l with
  | nil => exact ⟨Function.update_self .., hr'.update hr _⟩
  | cons p l ih =>
    simp only [addresses_cons, List.mem_cons, not_or] at hl
    refine ⟨?_, ih h.2 hl.2⟩
    have hstart : start (l ++ (a, w) :: r) = start (l ++ (a, w) :: r') := by
      rw [start_append_cons, start_append_cons l r']
    rw [Function.update_of_ne (Ne.symm hl.1), h.1]
    exact congrArg (fun next => some (Linked.mk p.2 next)) hstart

end Places

open Places

namespace Heap

/-- Everything but these nodes is as it was. -/
structure Touches (h h' : Heap ι) (l : List Address) : Prop where
  nodes : ∀ a, a ∉ l → h'.nodes a = h.nodes a
  anchors : h'.anchors = h.anchors
  freed : h'.freed = h.freed

theorem Touches.refl (h : Heap ι) (l : List Address) : h.Touches h l := ⟨fun _ _ => rfl, rfl, rfl⟩

theorem Touches.trans {h h' h'' : Heap ι} {l : List Address} (ht : h.Touches h' l)
    (ht' : h'.Touches h'' l) : h.Touches h'' l where
  nodes a ha := (ht'.nodes a ha).trans (ht.nodes a ha)
  anchors := ht'.anchors.trans ht.anchors
  freed := ht'.freed.trans ht.freed

theorem Touches.mono {h h' : Heap ι} {l l' : List Address} (ht : h.Touches h' l) (hl : l ⊆ l') :
    h.Touches h' l' :=
  ⟨fun a ha => ht.nodes a fun hm => ha (hl hm), ht.anchors, ht.freed⟩

@[simp] theorem nodes_anchor (h : Heap ι) (key : Nat) (store : Anchor) :
    (h.anchor key store).nodes = h.nodes := rfl

@[simp] theorem freed_anchor (h : Heap ι) (key : Nat) (store : Anchor) :
    (h.anchor key store).freed = h.freed := rfl

theorem link_eq {h : Heap ι} {a : Address} {w : Waiting ι} {n : Option Address}
    (ha : h.nodes a = some ⟨w, n⟩) (next : Option Address) :
    h.link a next = some { h with nodes := Function.update h.nodes a (some ⟨w, next⟩) } := by
  simp [link, ha]

end Heap

/-! ## The pass -/

namespace Pass

/-- A pass has got through `kept` and still has `rest` to look at; it has turned `freed` around. -/
structure Holds (p : Pass ι) (kept rest freed : Places ι) : Prop where
  first : p.first = start (kept ++ rest)
  strung : Strung p.heap.nodes (kept ++ rest)
  last : p.last = kept.getLast?.map (·.1)
  retired : p.retired = start freed
  turned : Strung p.heap.nodes freed
  apart : (addresses (kept ++ rest ++ freed)).Nodup
  moves : p.moves = kept.length
  retires : p.retires = freed.length

variable {p : Pass ι} {kept rest freed : Places ι} {version : Nat} {c : Address} {w : Waiting ι}

theorem perm_turn (kept rest freed : Places ι) (q : Address × Waiting ι) :
    (kept ++ q :: rest ++ freed).Perm (kept ++ rest ++ q :: freed) := by
  simp only [List.append_assoc, List.cons_append]
  exact List.perm_middle.symm.append_left kept

theorem Holds.next_eq (h : p.Holds kept rest freed) : p.next = some (start rest) := by
  unfold next
  rw [h.last]
  cases kept using List.reverseRecOn with
  | nil => simpa using h.first
  | append_singleton l q =>
    have hat := h.strung
    rw [List.append_assoc] at hat
    simp [hat.link_eq]

/-- The last node that stays is linked past the next one. -/
theorem Holds.relink (h : p.Holds kept ((c, w) :: rest) freed) : ∃ p', p.relink (start rest) = some p' ∧
    p'.first = start (kept ++ rest) ∧ Strung p'.heap.nodes (kept ++ rest) ∧
    p.heap.Touches p'.heap (addresses kept) ∧ p'.last = p.last ∧ p'.retired = p.retired ∧
    p'.moves = p.moves ∧ p'.retires = p.retires := by
  unfold Pass.relink
  have hlast := h.last
  cases kept using List.reverseRecOn with
  | nil =>
    rw [List.getLast?_nil, Option.map_none] at hlast
    rw [hlast]
    exact ⟨_, rfl, rfl, h.strung.2, .refl _ _, rfl, rfl, rfl, rfl⟩
  | append_singleton l q =>
    obtain ⟨a, v⟩ := q
    rw [List.getLast?_concat, Option.map_some] at hlast
    have hstrung : Strung p.heap.nodes (l ++ (a, v) :: (c, w) :: rest) := by simpa using h.strung
    have hapart := h.apart
    simp only [List.append_assoc, addresses_append, addresses_cons, List.cons_append, List.nil_append,
      List.nodup_append, List.nodup_cons, List.mem_cons, List.mem_append, not_or,
      forall_eq_or_imp, ne_eq] at hapart
    have hl : a ∉ addresses l := fun ha => (hapart.2.2 a ha).1 rfl
    have hr : a ∉ addresses rest := hapart.2.1.1.2.1
    have hne : start rest ≠ some a := by
      cases rest with
      | nil => simp
      | cons b rest =>
        intro he
        simp only [start_cons, Option.some.injEq] at he
        simp [he] at hr
    have hnew : start (l ++ (a, v) :: (c, w) :: rest) = start (l ++ (a, v) :: rest) := by
      rw [start_append_cons, start_append_cons l rest]
    rw [hlast]
    simp only [hne, if_false, Heap.link_eq hstrung.link_eq]
    refine ⟨_, rfl, ?_, ?_, ⟨fun b hb => ?_, rfl, rfl⟩, rfl, rfl, rfl, rfl⟩
    · simpa [hnew] using h.first
    · simpa using hstrung.relink hl hr hstrung.right.2.2
    · exact Function.update_of_ne (by rintro rfl; simp at hb) ..

theorem Holds.turn_due (h : p.Holds kept ((c, w) :: rest) freed) (hw : w.version ≤ version) :
    ∃ p', p.turn version c = some p' ∧ p'.Holds kept rest ((c, w) :: freed) ∧
      p.heap.Touches p'.heap (addresses (kept ++ (c, w) :: rest ++ freed)) := by
  obtain ⟨p', he, hfirst, hstrung, ht, hlast, hretired, hmoves, hretires⟩ := h.relink
  have hperm : (addresses (kept ++ (c, w) :: rest ++ freed)).Perm
      (c :: (addresses kept ++ addresses rest ++ addresses freed)) := by
    simp only [addresses_append, addresses_cons, List.append_assoc, List.cons_append]
    exact List.perm_middle
  obtain ⟨hc, hrest⟩ := List.nodup_cons.1 (hperm.nodup_iff.1 h.apart)
  have hmem := hc
  simp only [List.mem_append, not_or] at hmem
  -- the node itself and those freed before it are as they were
  have hnode : p'.heap.nodes c = some ⟨w, start rest⟩ := (ht.nodes c hmem.1.1).trans h.strung.link_eq
  have hturned : Strung p'.heap.nodes freed := h.turned.congr fun b hb => ht.nodes b fun hk =>
    List.disjoint_of_nodup_append hrest (List.mem_append_left _ hk) hb
  have hturn : p.turn version c = some { p' with
      heap := { p'.heap with nodes := Function.update p'.heap.nodes c (some ⟨w, p'.retired⟩) }
      retired := some c
      retires := p'.retires + 1 } := by
    simp [turn, h.strung.link_eq, hw, he, Heap.link_eq hnode]
  refine ⟨_, hturn, ⟨hfirst, ?_, hlast.trans h.last, rfl, ⟨?_, ?_⟩, ?_, hmoves.trans h.moves, ?_⟩,
    ⟨fun b hb => ?_, ht.anchors, ht.freed⟩⟩
  · exact hstrung.update (by simpa using hmem.1) _
  · simp [hretired, h.retired]
  · exact hturned.update hmem.2 _
  · exact ((perm_turn kept rest freed (c, w)).map _).nodup_iff.1 h.apart
  · simp [hretires, h.retires]
  · have hb' := hperm.mem_iff.not.1 hb
    simp only [List.mem_cons, List.mem_append, not_or] at hb'
    exact (Function.update_of_ne hb'.1 ..).trans (ht.nodes b hb'.2.1.1)

theorem Holds.turn_newer (h : p.Holds kept ((c, w) :: rest) freed) (hw : version < w.version) :
    ∃ p', p.turn version c = some p' ∧ p'.Holds (kept ++ [(c, w)]) rest freed ∧ p'.heap = p.heap := by
  have hturn : p.turn version c = some { p with last := some c, moves := p.moves + 1 } := by
    simp [turn, h.strung.link_eq, Nat.not_le.2 hw]
  refine ⟨_, hturn, ⟨?_, ?_, ?_, h.retired, h.turned, ?_, ?_, h.retires⟩, rfl⟩
  · simpa using h.first
  · simpa using h.strung
  · simp
  · simpa using h.apart
  · simp [h.moves]

/-- The pass parts the rest of the list at the version. -/
theorem Holds.loop (h : p.Holds kept rest freed) (version : Nat) : ∃ p', p.loop version = Part.some p' ∧
    p'.Holds (kept ++ newer version rest) [] ((due version rest).reverse ++ freed) ∧
    p.heap.Touches p'.heap (addresses (kept ++ rest ++ freed)) := by
  induction rest generalizing p kept freed with
  | nil =>
    have hend : p.goOn version = some (.inl p) := by simp [goOn, h.next_eq, start]
    exact ⟨p, rounds_of_leaves hend, by simpa [newer, due] using h, .refl _ _⟩
  | cons q rest ih =>
    obtain ⟨c, w⟩ := q
    have hgoes : ∀ {p₁}, p.turn version c = some p₁ → p.loop version = p₁.loop version :=
      fun hturn => rounds_of_goes_on (by simp [goOn, h.next_eq, start, hturn])
    by_cases hw : w.version ≤ version
    · obtain ⟨p₁, hturn, h₁, ht₁⟩ := h.turn_due hw
      obtain ⟨p₂, hloop, h₂, ht₂⟩ := ih h₁
      refine ⟨p₂, (hgoes hturn).trans hloop, ?_, ht₁.trans ?_⟩
      · simpa [newer, due, hw, Nat.not_lt.2 hw] using h₂
      · exact ht₂.mono ((perm_turn kept rest freed (c, w)).map _).symm.subset
    · obtain ⟨p₁, hturn, h₁, ht₁⟩ := h.turn_newer (Nat.not_le.1 hw)
      obtain ⟨p₂, hloop, h₂, ht₂⟩ := ih h₁
      refine ⟨p₂, (hgoes hturn).trans hloop, ?_, ?_⟩
      · simpa [newer, due, hw, Nat.not_le.1 hw] using h₂
      · rw [ht₁] at ht₂
        simpa using ht₂

/-- The nodes that stay go before those that wait in the receiver. -/
theorem Holds.handOver (h : p.Holds kept [] freed) (receiver : Nat) {old : Places ι}
    (hfirst : (p.heap.anchors receiver).first = start old) (hold : Strung p.heap.nodes old)
    (hd : (addresses kept).Disjoint (addresses old)) : ∃ h', p.handOver receiver = some h' ∧
      Strung h'.nodes (kept ++ old) ∧ (∀ a, a ∉ addresses kept → h'.nodes a = p.heap.nodes a) ∧
      h'.freed = p.heap.freed ∧ h'.anchors = Function.update p.heap.anchors receiver
        { p.heap.anchors receiver with
          first := start (kept ++ old)
          count := (p.heap.anchors receiver).count + kept.length } := by
  have hhead := h.first
  have hlast := h.last
  have hstrung := h.strung
  rw [List.append_nil] at hhead hstrung
  unfold Pass.handOver
  cases kept using List.reverseRecOn with
  | nil =>
    rw [hhead]
    refine ⟨_, rfl, hold, fun _ _ => rfl, rfl, ?_⟩
    simp [← hfirst]
  | append_singleton l q =>
    obtain ⟨a, w⟩ := q
    rw [List.getLast?_concat, Option.map_some] at hlast
    have hl : a ∉ addresses l := by
      have hapart := h.apart
      simp only [List.append_assoc, addresses_append, List.nodup_append] at hapart
      intro ha
      exact hapart.2.2 a ha a (by simp) rfl
    have hr : a ∉ addresses old := fun ha => hd (by simp) ha
    obtain ⟨first, hs⟩ : ∃ first, start (l ++ [(a, w)]) = some first := by
      cases l with
      | nil => exact ⟨_, rfl⟩
      | cons q l => exact ⟨_, rfl⟩
    rw [hhead, hs, hlast]
    simp only [Heap.splice, hfirst, Heap.link_eq hstrung.link_eq]
    refine ⟨_, rfl, ?_, fun b hb => ?_, rfl, ?_⟩
    · simpa using hstrung.relink hl hr hold
    · exact Function.update_of_ne (by rintro rfl; simp at hb) ..
    · have hstart : start (l ++ (a, w) :: old) = some first := by
        rw [← hs, start_append_cons]
      simp [Heap.anchor, ← hstart, h.moves]

end Pass

namespace Heap

/-- Without these nodes, which have been freed. -/
def without (h : Heap ι) (l : Places ι) : Heap ι :=
  { h with
    nodes := fun a => if a ∈ addresses l then none else h.nodes a
    freed := h.freed ++ l.map (·.2) }

/-- All nodes of a list are freed, one after another, if their drop functions do nothing. -/
theorem freeAll_eq {drop : Node ι → Heap ι → Heap ι} {h : Heap ι} {l : Places ι}
    (hl : Strung h.nodes l) (hn : (addresses l).Nodup) (hdrop : ∀ q ∈ l, ∀ h, drop q.2.node h = h) :
    h.freeAll drop (start l) = Part.some (h.without l) := by
  induction l generalizing h with
  | nil =>
    exact rounds_of_leaves (by simp [freeNext, without])
  | cons q l ih =>
    obtain ⟨a, w⟩ := q
    obtain ⟨ha, hn⟩ := List.nodup_cons.1 hn
    have hfree : h.free drop a = some { h with
        nodes := Function.update h.nodes a none
        freed := h.freed ++ [w] } := by
      simp [free, hl.1, hdrop (a, w) (by simp)]
    have hgoes : h.freeAll drop (start ((a, w) :: l)) = freeAll drop { h with
        nodes := Function.update h.nodes a none
        freed := h.freed ++ [w] } (start l) :=
      rounds_of_goes_on (by simp [freeNext, hl.1, hfree])
    refine hgoes.trans ((ih (hl.2.update ha none) hn fun q hq => hdrop q (by simp [hq])).trans ?_)
    have hnodes : (fun b => if b ∈ addresses l then none else Function.update h.nodes a none b) =
        fun b => if b ∈ a :: addresses l then none else h.nodes b := by
      funext b
      by_cases hb : b = a
      · simp [hb]
      · simp [hb, Function.update_of_ne]
    simp [without, hnodes]

end Heap

end BackoffStack
