/-
Draining a store in memory is draining it on the shelf.

The lists of all stores lie apart from each other (`Heap.Keeps`), so that parting one of them in place, and
linking what is left in front of another, touches no third. What comes out is a memory that shows the shelf
that `Shelf.retire` answers (`Heap.retire_surgery`): the nodes that can be freed are gone, in the reverse of
their order, and all others are in the receiver.
-/
import BackoffStack.Proofs.Hazard.Surgery
import BackoffStack.Schedule

namespace BackoffStack

variable {ι : Type}

open Places

/-! ## The shelf -/

/-- A list that is parted at a version holds the same. -/
theorem filter_parted_perm {γ : Type} (f : γ → Nat) (version : Nat) (l : List γ) :
    (l.filter (version < f ·) ++ l.filter (f · ≤ version)).Perm l := by
  have hd : l.filter (f · ≤ version) = l.filter fun q => !decide (version < f q) := by
    simp only [← decide_not, Nat.not_lt]
  rw [hd]
  exact List.filter_append_perm _ l

namespace Shelf

variable {s : Shelf ι} {key caller version receiver : Nat}

theorem get_put (s : Shelf ι) (key : Nat) (store : Store ι) (k : Nat) :
    (s.put key store).get k = if k = key then store else s.get k := by
  by_cases hk : k = key
  · simp [put, get, hk]
  · simp only [put, get, remove, List.lookup_cons, beq_eq_false_iff_ne.2 hk, Flights.lookup_filter_ne, hk, if_false]

theorem drain_of_ne {s : Store ι} (hv : s.lastRetired ≠ version) : s.drain version = {
    store := { s with lastRetired := version, waiting := [], count := s.count - s.waiting.length }
    kept := s.waiting.filter (version < ·.version)
    freed := (s.waiting.filter (·.version ≤ version)).reverse } := by
  have hlength : ((s.waiting.filter (version < ·.version)).length : Int) +
      (s.waiting.filter (·.version ≤ version)).length = s.waiting.length := by
    rw [← (filter_parted_perm Waiting.version version s.waiting).length_eq, List.length_append,
      Int.natCast_add]
  simp [Store.drain, hv, Store.sift_eq, hlength]

/-- What is in one of the stores, once that of `key` has been drained into that of `receiver`. -/
structure Hands (s : Shelf ι) (key version receiver k : Nat) (store : Store ι) : Prop where
  owner : store.owner = (s.get k).owner
  lastRetired : store.lastRetired = if k = key then version else (s.get k).lastRetired
  waiting : store.waiting =
    (if k = receiver then (s.get key).waiting.filter (version < ·.version) else []) ++
      if k = key then [] else (s.get k).waiting
  count : store.count = (s.get k).count +
    (if k = receiver then ((s.get key).waiting.filter (version < ·.version)).length else 0) -
    if k = key then (s.get key).waiting.length else 0

theorem retire_eq (howner : (s.get receiver).owner = caller)
    (hv : (s.get key).lastRetired ≠ version) :
    ∃ s', s.retire key caller version receiver =
        .ok (((s.get key).waiting.filter (·.version ≤ version)).reverse, s') ∧
      ∀ k, s.Hands key version receiver k (s'.get k) := by
  have hretire : s.retire key caller version receiver =
      .ok (((s.get key).drain version).freed, (s.put key ((s.get key).drain version).store).put receiver
        (((s.put key ((s.get key).drain version).store).get receiver).receive
          ((s.get key).drain version).kept)) := by
    simp [Shelf.retire, Store.assertOwner, howner]
  rw [drain_of_ne hv] at hretire
  refine ⟨_, hretire, fun k => ?_⟩
  by_cases hr : k = receiver
  · subst hr
    by_cases hkey : k = key
    · subst hkey
      refine ⟨?_, ?_, ?_, ?_⟩ <;> simp only [get_put, Store.receive, if_true, List.append_nil]
      omega
    · constructor <;> simp [get_put, Store.receive, hkey]
  · by_cases hkey : k = key
    · subst hkey
      constructor <;> simp [get_put, hr]
    · constructor <;> simp [get_put, hr, hkey]

end Shelf

/-! ## Memory -/

namespace Heap

variable {h : Heap ι} {s : Shelf ι} {placed : Nat → Places ι} {key caller version receiver : Nat}
  {drop : Node ι → Heap ι → Heap ι}

/-- The places of each store's nodes, once the store of `key` has been drained into another. -/
def moved (placed : Nat → Places ι) (key version receiver : Nat) : Nat → Places ι :=
  let taken := Function.update placed key []
  Function.update taken receiver (newer version (placed key) ++ taken receiver)

/-- The stores have their lists at these places, no two of which are the same. -/
structure Keeps (h : Heap ι) (placed : Nat → Places ι) : Prop where
  first : ∀ k, (h.anchors k).first = start (placed k)
  strung : ∀ k, Strung h.nodes (placed k)
  apart : ∀ k, (addresses (placed k)).Nodup
  disjoint : ∀ k l, k ≠ l → (addresses (placed k)).Disjoint (addresses (placed l))

/-- The lists of all stores once that of `key` has been taken, and parted, and what is left has been handed
over. -/
structure Parted (h : Heap ι) (placed : Nat → Places ι) (key version receiver : Nat) (p : Pass ι)
    (h' : Heap ι) : Prop where
  moves : p.moves = (newer version (placed key)).length
  retires : p.retires = (due version (placed key)).length
  retired : p.retired = start (due version (placed key)).reverse
  turned : Strung h'.nodes (due version (placed key)).reverse
  kept : Strung h'.nodes (newer version (placed key) ++ Function.update placed key [] receiver)
  elsewhere : ∀ a, a ∉ addresses (placed key) → h'.nodes a = h.nodes a
  freed : h'.freed = h.freed
  anchors : ∀ k, h'.anchors k = {
    owner := (h.anchors k).owner
    lastRetired := if k = key then version else (h.anchors k).lastRetired
    first := start (moved placed key version receiver k)
    count := (h.anchors k).count + if k = receiver then (newer version (placed key)).length else 0 }

theorem newer_subset (version : Nat) (l : Places ι) : addresses (newer version l) ⊆ addresses l :=
  List.map_subset _ List.filter_sublist.subset

theorem due_subset (version : Nat) (l : Places ι) : addresses (due version l) ⊆ addresses l :=
  List.map_subset _ List.filter_sublist.subset

theorem newer_append_due_perm (version : Nat) (l : Places ι) :
    (newer version l ++ due version l).Perm l :=
  filter_parted_perm (fun q : Address × Waiting ι => q.2.version) version l

theorem newer_disjoint_due {l : Places ι} (hl : (addresses l).Nodup) (version : Nat) :
    (addresses (newer version l)).Disjoint (addresses (due version l)) := by
  have hn : (addresses (newer version l ++ due version l)).Nodup :=
    ((newer_append_due_perm version l).map _).nodup_iff.2 hl
  rw [addresses_append] at hn
  exact List.disjoint_of_nodup_append hn

theorem Keeps.anchors_take (hk : h.Keeps placed) (key version k : Nat) :
    (h.take key version).anchors k = {
      owner := (h.anchors k).owner
      lastRetired := if k = key then version else (h.anchors k).lastRetired
      first := start (Function.update placed key [] k)
      count := (h.anchors k).count } := by
  by_cases hkey : k = key
  · subst hkey
    simp [take, anchor]
  · simp [take, anchor, hkey, ← hk.first k]

/-- The list that the receiver has when the other has been taken lies elsewhere. -/
theorem Keeps.taken (hk : h.Keeps placed) (key k : Nat) :
    Strung h.nodes (Function.update placed key [] k) ∧
      (addresses (Function.update placed key [] k)).Nodup ∧
      (addresses (placed key)).Disjoint (addresses (Function.update placed key [] k)) := by
  by_cases hkey : k = key
  · subst hkey
    simp [Strung]
  · rw [Function.update_of_ne hkey]
    exact ⟨hk.strung k, hk.apart k, hk.disjoint key k (Ne.symm hkey)⟩

/-- The pass over a list that has been taken comes to its end, and what is left is handed over. -/
theorem Keeps.part (hk : h.Keeps placed) (key version receiver : Nat) : ∃ p h',
    Pass.loop version { heap := h.take key version, first := (h.anchors key).first } = Part.some p ∧
      p.handOver receiver = some h' ∧ h.Parted placed key version receiver p h' := by
  have hbegin : (Pass.mk (h.take key version) (h.anchors key).first none none 0 0).Holds []
      (placed key) [] := by
    refine ⟨hk.first key, hk.strung key, rfl, rfl, trivial, ?_, rfl, rfl⟩
    simpa using hk.apart key
  obtain ⟨p, hloop, hp, ht⟩ := hbegin.loop version
  simp only [List.nil_append, List.append_nil] at hp ht
  obtain ⟨hstrung, -, hd⟩ := hk.taken key receiver
  have hparted := newer_disjoint_due (hk.apart key) version
  have hnewer := newer_subset version (placed key)
  obtain ⟨h', hhand, hkept, hnodes, hfreed, hanchors⟩ := hp.handOver receiver
    (by rw [ht.anchors]; simp [hk.anchors_take])
    (hstrung.congr fun b hb => ht.nodes b fun hm => hd hm hb) fun b hb hb' => hd (hnewer hb) hb'
  refine ⟨p, h', hloop, hhand, hp.moves, by simpa using hp.retires, hp.retired, ?_, hkept, ?_,
    hfreed.trans ht.freed, ?_⟩
  · exact hp.turned.congr fun b hb => hnodes b fun hm => hparted hm (by simpa [addresses] using hb)
  · intro a ha
    exact (hnodes a fun hm => ha (hnewer hm)).trans (ht.nodes a ha)
  · intro k
    rw [hanchors, ht.anchors]
    by_cases hr : k = receiver
    · subst hr
      simp [hk.anchors_take, moved]
    · simp [hk.anchors_take, moved, hr]

/-- A store has its list at these places. -/
def Has (h : Heap ι) (key : Nat) (l : Places ι) : Prop :=
  (h.anchors key).first = start l ∧ Strung h.nodes l

/-- Memory shows a shelf: each store's waiting list is at its places. -/
structure Shows (h : Heap ι) (s : Shelf ι) (placed : Nat → Places ι) : Prop where
  keeps : h.Keeps placed
  waiting : ∀ k, (placed k).map (·.2) = (s.get k).waiting
  owner : ∀ k, (h.anchors k).owner = (s.get k).owner
  lastRetired : ∀ k, (h.anchors k).lastRetired = (s.get k).lastRetired
  count : ∀ k, (h.anchors k).count = (s.get k).count

/-- What draining the store of `key` into that of `receiver` comes to. -/
structure Drains (h : Heap ι) (s : Shelf ι) (placed : Nat → Places ι)
    (key caller version receiver freed : Nat) (h' : Heap ι) : Prop where
  /-- The nodes that are not above the version are freed, in the reverse of their order, -/
  frees : h'.freed = h.freed ++ ((s.get key).waiting.filter (·.version ≤ version)).reverse
  /-- each of them once, as it is gone then, -/
  gone : ∀ q ∈ placed key, q.2.version ≤ version → h'.nodes q.1 = none
  /-- and as many are answered. -/
  number : freed = ((s.get key).waiting.filter (·.version ≤ version)).length
  /-- The others go, in their order, before those that wait in the receiver, if that is another store, -/
  receives : h'.Has receiver (newer version (placed key) ++ if receiver = key then [] else placed receiver)
  /-- and nothing waits any more in the store that has been drained. -/
  empties : receiver ≠ key → h'.Has key []
  /-- Every count is still right if it was. -/
  counts : ∀ k, (h.anchors k).count = (placed k).length →
    (h'.anchors k).count = (moved placed key version receiver k).length
  /-- Nothing else is touched. -/
  others : ∀ k, k ≠ key → k ≠ receiver → h'.anchors k = h.anchors k
  elsewhere : ∀ a, a ∉ addresses (placed key) → h'.nodes a = h.nodes a
  /-- Memory shows the shelf that comes out. -/
  shows : ∃ s', s.retire key caller version receiver =
      .ok (((s.get key).waiting.filter (·.version ≤ version)).reverse, s') ∧
    h'.Shows s' (moved placed key version receiver)

theorem taken_subset (placed : Nat → Places ι) (key k : Nat) :
    addresses (Function.update placed key [] k) ⊆ addresses (placed k) := by
  by_cases hkey : k = key
  · subst hkey
    simp
  · rw [Function.update_of_ne hkey]
    exact List.Subset.refl _

theorem moved_of_ne {k : Nat} (hr : k ≠ receiver) :
    moved placed key version receiver k = Function.update placed key [] k := by
  simp [moved, hr]

theorem moved_self : moved placed key version receiver receiver =
    newer version (placed key) ++ Function.update placed key [] receiver := by
  simp [moved]

/-- In their new places, too, no two nodes of any stores lie at one address. -/
theorem Keeps.disjoint_moved (hk : h.Keeps placed) {k : Nat} (hr : k ≠ receiver) :
    (addresses (moved placed key version receiver receiver)).Disjoint
      (addresses (moved placed key version receiver k)) := by
  intro a ha hak
  rw [moved_of_ne hr] at hak
  rw [moved_self, addresses_append, List.mem_append] at ha
  cases ha with
  | inl ha => exact (hk.taken key k).2.2 (newer_subset _ _ ha) hak
  | inr ha => exact hk.disjoint receiver k (Ne.symm hr) (taken_subset _ _ _ ha) (taken_subset _ _ _ hak)

theorem Keeps.of_moved (hk : h.Keeps placed) {h' : Heap ι}
    (hfirst : ∀ k, (h'.anchors k).first = start (moved placed key version receiver k))
    (hkept : Strung h'.nodes (moved placed key version receiver receiver))
    (helse : ∀ a, a ∉ addresses (placed key) → h'.nodes a = h.nodes a) :
    h'.Keeps (moved placed key version receiver) := by
  refine ⟨hfirst, fun k => ?_, fun k => ?_, fun k l hkl => ?_⟩
  · by_cases hr : k = receiver
    · exact hr ▸ hkept
    · rw [moved_of_ne hr]
      obtain ⟨hstrung, -, hd⟩ := hk.taken key k
      exact hstrung.congr fun b hb => helse b fun hm => hd hm hb
  · by_cases hr : k = receiver
    · obtain ⟨-, hn, hd⟩ := hk.taken key receiver
      rw [hr, moved_self, addresses_append]
      refine List.nodup_append'.2 ⟨?_, hn, fun a ha => hd (newer_subset _ _ ha)⟩
      exact (List.filter_sublist.map _).nodup (hk.apart key)
    · rw [moved_of_ne hr]
      exact (hk.taken key k).2.1
  · by_cases hr : k = receiver
    · subst hr
      exact hk.disjoint_moved (Ne.symm hkl)
    · by_cases hr' : l = receiver
      · subst hr'
        exact fun a ha ha' => hk.disjoint_moved hkl ha' ha
      · rw [moved_of_ne hr, moved_of_ne hr']
        intro a ha ha'
        exact hk.disjoint k l hkl (taken_subset _ _ _ ha) (taken_subset _ _ _ ha')

/-- The nodes that can be freed are gone, and all others are in their new places. -/
structure Drained (h : Heap ι) (placed : Nat → Places ι) (key version receiver : Nat) (h' : Heap ι) :
    Prop where
  keeps : h'.Keeps (moved placed key version receiver)
  freed : h'.freed = h.freed ++ ((due version (placed key)).map (·.2)).reverse
  gone : ∀ a ∈ addresses (due version (placed key)), h'.nodes a = none
  elsewhere : ∀ a, a ∉ addresses (placed key) → h'.nodes a = h.nodes a
  anchors : ∀ k, h'.anchors k = {
    owner := (h.anchors k).owner
    lastRetired := if k = key then version else (h.anchors k).lastRetired
    first := start (moved placed key version receiver k)
    count := (h.anchors k).count + (if k = receiver then (newer version (placed key)).length else 0) -
      if k = key then (placed key).length else 0 }

theorem addresses_reverse (l : Places ι) : addresses l.reverse = (addresses l).reverse :=
  List.map_reverse

theorem length_parted (version : Nat) (l : Places ι) :
    l.length = (newer version l).length + (due version l).length := by
  rw [← (newer_append_due_perm version l).length_eq, List.length_append]

theorem Parted.drained {p : Pass ι} {h₁ : Heap ι} (hp : h.Parted placed key version receiver p h₁)
    (hk : h.Keeps placed) : h.Drained placed key version receiver
      ((h₁.discount key (p.moves + p.retires)).without (due version (placed key)).reverse) := by
  have hlength := length_parted version (placed key)
  have hanchors : ∀ k, ((h₁.discount key (p.moves + p.retires)).without
      (due version (placed key)).reverse).anchors k = {
        owner := (h.anchors k).owner
        lastRetired := if k = key then version else (h.anchors k).lastRetired
        first := start (moved placed key version receiver k)
        count := (h.anchors k).count + (if k = receiver then (newer version (placed key)).length else 0) -
          if k = key then (placed key).length else 0 } := by
    intro k
    by_cases hkey : k = key
    · subst hkey
      simp [without, discount, anchor, hp.anchors, hp.moves, hp.retires, hlength]
    · simp [without, discount, anchor, hp.anchors, hkey]
  have helse : ∀ a, a ∉ addresses (due version (placed key)) →
      ((h₁.discount key (p.moves + p.retires)).without (due version (placed key)).reverse).nodes a =
        h₁.nodes a := by
    intro a ha
    simp [without, discount, addresses_reverse, ha]
  have houtside : ∀ a, a ∉ addresses (placed key) →
      ((h₁.discount key (p.moves + p.retires)).without (due version (placed key)).reverse).nodes a =
        h.nodes a := fun a ha =>
    (helse a fun hm => ha (due_subset _ _ hm)).trans (hp.elsewhere a ha)
  refine ⟨hk.of_moved (fun k => by rw [hanchors]) ?_ houtside, ?_, ?_, houtside, hanchors⟩
  · -- the receiver's list, old and new, lies apart from what is freed
    rw [moved_self]
    refine hp.kept.congr fun b hb => helse b fun hdue => ?_
    rw [addresses_append, List.mem_append] at hb
    cases hb with
    | inl hb => exact newer_disjoint_due (hk.apart key) version hb hdue
    | inr hb => exact (hk.taken key receiver).2.2 (due_subset _ _ hdue) hb
  · simp [without, discount, hp.freed]
  · intro a ha
    simp [without, addresses_reverse, ha]

/-- Draining a store comes to its end. -/
theorem Keeps.retire (hk : h.Keeps placed) (howner : (h.anchors receiver).owner = caller)
    (hv : (h.anchors key).lastRetired ≠ version) (hdrop : ∀ q ∈ placed key, ∀ h, drop q.2.node h = h) :
    ∃ h', h.retire drop key caller version receiver =
        Part.some ((due version (placed key)).length, h') ∧
      h.Drained placed key version receiver h' := by
  obtain ⟨p, h₁, hloop, hhand, hp⟩ := hk.part key version receiver
  refine ⟨_, ?_, hp.drained hk⟩
  have hapart : (addresses (due version (placed key)).reverse).Nodup := by
    rw [addresses_reverse, List.nodup_reverse]
    exact List.Sublist.nodup (List.filter_sublist.map _) (hk.apart key)
  have hfree := freeAll_eq (h := h₁.discount key (p.moves + p.retires)) hp.turned hapart fun q hq =>
    hdrop q (List.filter_sublist.subset (List.mem_reverse.1 hq))
  rw [← hp.retired] at hfree
  rw [Heap.retire, Part.assert_pos howner, if_neg hv, hloop]
  simp [hhand, hfree, ← hp.retires]

theorem map_due (version : Nat) (l : Places ι) :
    (due version l).map (·.2) = (l.map (·.2)).filter (·.version ≤ version) := by
  rw [due, List.filter_map]
  rfl

theorem map_newer (version : Nat) (l : Places ι) :
    (newer version l).map (·.2) = (l.map (·.2)).filter (version < ·.version) := by
  rw [newer, List.filter_map]
  rfl

/-- Counts that were right are right again. -/
theorem Drained.count_eq {h' : Heap ι} (hd : h.Drained placed key version receiver h') {k : Nat}
    (hk : (h.anchors k).count = (placed k).length) :
    (h'.anchors k).count = (moved placed key version receiver k).length := by
  have hlength := length_parted version (placed key)
  rw [hd.anchors]
  by_cases hr : k = receiver
  · subst hr
    by_cases hkey : k = key
    · subst hkey
      simp only [moved_self, hk, Function.update_self, List.append_nil, if_true]
      omega
    · simp only [moved_self, hk, Function.update_of_ne hkey, List.length_append, if_true, if_neg hkey]
      omega
  · by_cases hkey : k = key
    · subst hkey
      simp [moved_of_ne hr, hr, hk]
    · simp [moved_of_ne hr, hr, hkey, hk]

theorem Shows.waiting_moved (hs : h.Shows s placed) (key version receiver k : Nat) :
    (moved placed key version receiver k).map (·.2) =
      (if k = receiver then (s.get key).waiting.filter (version < ·.version) else []) ++
        if k = key then [] else (s.get k).waiting := by
  by_cases hr : k = receiver
  · subst hr
    rw [moved_self, List.map_append, map_newer, hs.waiting key, Function.update_apply]
    by_cases hkey : k = key
    · simp [hkey]
    · simp [hkey, hs.waiting k]
  · rw [moved_of_ne hr, Function.update_apply]
    by_cases hkey : k = key
    · rw [if_neg hr, if_pos hkey, if_pos hkey]
      rfl
    · simp [hr, hkey, hs.waiting k]

/-- Memory shows the shelf that comes out. -/
theorem Drained.shows {h' : Heap ι} {s' : Shelf ι} (hd : h.Drained placed key version receiver h')
    (hs : h.Shows s placed) (hs' : ∀ k, s.Hands key version receiver k (s'.get k)) :
    h'.Shows s' (moved placed key version receiver) := by
  refine ⟨hd.keeps, fun k => ?_, fun k => ?_, fun k => ?_, fun k => ?_⟩
  · rw [(hs' k).waiting, hs.waiting_moved]
  · rw [hd.anchors, (hs' k).owner]
    exact hs.owner k
  · rw [hd.anchors, (hs' k).lastRetired]
    simp [hs.lastRetired]
  · rw [hd.anchors, (hs' k).count, ← hs.waiting key, ← map_newer, List.length_map, List.length_map,
      ← hs.count]

/-- Draining a store parts its list at the version, in place. -/
theorem retire_surgery (hs : h.Shows s placed) (howner : (s.get receiver).owner = caller)
    (hv : (s.get key).lastRetired ≠ version)
    (hdrop : ∀ w ∈ (s.get key).waiting, ∀ h, drop w.node h = h) :
    ∃ freed h', h.retire drop key caller version receiver = Part.some (freed, h') ∧
      h.Drains s placed key caller version receiver freed h' := by
  have hwaiting := hs.waiting key
  obtain ⟨h', hretire, hd⟩ := hs.keeps.retire ((hs.owner receiver).trans howner)
    (fun he => hv ((hs.lastRetired key).symm.trans he)) fun q hq =>
      hdrop q.2 (hwaiting ▸ List.mem_map_of_mem hq)
  obtain ⟨s', hshelf, hs'⟩ := Shelf.retire_eq howner hv
  refine ⟨_, h', hretire, ?_, ?_, ?_, ?_, ?_, fun k => hd.count_eq, ?_, hd.elsewhere, s', hshelf,
    hd.shows hs hs'⟩
  · rw [hd.freed, map_due, hwaiting]
  · intro q hq hle
    refine hd.gone q.1 (List.mem_map_of_mem (List.mem_filter.2 ⟨hq, ?_⟩))
    simpa using hle
  · rw [← hwaiting, ← map_due, List.length_map]
  · rw [← Function.update_apply placed key []]
    exact ⟨moved_self ▸ hd.keeps.first receiver, moved_self ▸ hd.keeps.strung receiver⟩
  · intro hne
    have hempty : moved placed key version receiver key = [] := by simp [moved_of_ne (Ne.symm hne)]
    exact ⟨hempty ▸ hd.keeps.first key, trivial⟩
  · intro k hkey hr
    rw [hd.anchors]
    simp [moved_of_ne hr, hkey, hr, ← hs.keeps.first k]

/-- Two stores, each with its nodes. -/
def twoPlaces : Nat → Places Nat
  | 0 => [(64, ⟨3, .leaf 30⟩), (128, ⟨1, .leaf 10⟩), (192, ⟨2, .leaf 20⟩)]
  | 1 => [(256, ⟨1, .leaf 11⟩)]
  | _ => []

/-- The stores of two threads. -/
def twoStores : Shelf Nat where
  stores := [(0, { owner := 1, waiting := (twoPlaces 0).map (·.2), count := 3 }),
    (1, { owner := 2, waiting := (twoPlaces 1).map (·.2), count := 1 })]

/-- Memory that shows them. -/
def twoLists : Heap Nat where
  nodes a := [(64, Linked.mk ⟨3, .leaf 30⟩ (some 128)), (128, ⟨⟨1, .leaf 10⟩, some 192⟩),
    (192, ⟨⟨2, .leaf 20⟩, none⟩), (256, ⟨⟨1, .leaf 11⟩, none⟩)].lookup a
  anchors
    | 0 => { owner := 1, first := some 64, count := 3 }
    | 1 => { owner := 2, first := some 256, count := 1 }
    | _ => {}

theorem twoLists_shows : twoLists.Shows twoStores twoPlaces := by
  have hlater : ∀ k, twoStores.get (k + 2) = {} := fun k => by
    simp [twoStores, Shelf.get, List.lookup_cons]
  refine ⟨⟨fun k => ?_, fun k => ?_, fun k => ?_, fun k l => ?_⟩, fun k => ?_, fun k => ?_, fun k => ?_,
    fun k => ?_⟩
  · match k with
    | 0 | 1 | k + 2 => rfl
  · match k with
    | 0 => exact ⟨rfl, rfl, rfl, trivial⟩
    | 1 => exact ⟨rfl, trivial⟩
    | k + 2 => trivial
  · match k with
    | 0 | 1 | k + 2 => simp [twoPlaces]
  · match k, l with
    | 0, 0 | 0, 1 | 0, l + 2 | 1, 0 | 1, 1 | 1, l + 2 | k + 2, _ => simp [twoPlaces]
  all_goals match k with
    | 0 | 1 => rfl
    | k + 2 => rw [hlater]; rfl

/-- One thread drains the other's store into its own. -/
theorem retire_two_stores : (twoLists.Shows twoStores twoPlaces ∧ (twoStores.get 1).owner = 2 ∧
    (twoStores.get 0).lastRetired ≠ 2 ∧ ∀ w ∈ (twoStores.get 0).waiting, ∀ h : Heap Nat, h = h) ∧
    ∃ freed h', twoLists.retire (fun _ h => h) 0 2 2 1 = Part.some (freed, h') ∧
      twoLists.Drains twoStores twoPlaces 0 2 2 1 freed h' :=
  ⟨⟨twoLists_shows, rfl, by decide, fun _ _ _ => rfl⟩,
    retire_surgery twoLists_shows rfl (by decide) fun _ _ _ => rfl⟩

end Heap

end BackoffStack
