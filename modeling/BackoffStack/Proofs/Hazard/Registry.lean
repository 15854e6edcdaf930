/-
The stores of an epoch and the list on which they are registered.

A store is on the list if and only if it has an owner, which is the thread with its id; a store that is
not on the list has never been used. So whoever follows the list misses no node that waits and no
version that is published. In no store waits a node that is as old as the version it was drained to
last: that is why a second drain to that version may skip the store.
-/
import BackoffStack.Hazard.Epoch
import BackoffStack.Proofs.Segment.Slots
import Mathlib.Data.List.Perm.Subperm
import Mathlib.Order.Bounds.Basic

namespace BackoffStack

variable {ι : Type}

/-- A store of the same owner, at the same place of the list. -/
structure Store.Like (s s' : Store ι) : Prop where
  enabled : s'.enabled = s.enabled
  owner : s'.owner = s.owner
  next : s'.next = s.next

/-- A store that at most its waiting list has changed in. -/
structure Store.Still (s s' : Store ι) : Prop extends s.Like s' where
  published : s'.published = s.published
  sequence : s'.sequence = s.sequence

theorem Store.Still.refl (s : Store ι) : s.Still s := ⟨⟨rfl, rfl, rfl⟩, rfl, rfl⟩

theorem Store.Still.trans {s s' s'' : Store ι} (h : s.Still s') (h' : s'.Still s'') :
    s.Still s'' :=
  ⟨⟨h'.enabled.trans h.enabled, h'.owner.trans h.owner, h'.next.trans h.next⟩,
    h'.published.trans h.published, h'.sequence.trans h.sequence⟩

/-- The nodes that wait are newer than the version of the last drain. -/
def Store.Fresh (s : Store ι) : Prop := ∀ w ∈ s.waiting, s.lastRetired < w.version

/-- No node waits that a drain to `version` would free. -/
def Store.Clean (s : Store ι) (version : Nat) : Prop := ∀ w ∈ s.waiting, version < w.version

namespace Epoch

/-- All nodes that wait. -/
def waiting (e : Epoch ι) : List (Waiting ι) := e.stores.slots.flatMap (·.waiting)

/-- The stores with these ids are linked one to the other, from `link` on to the end. -/
def Chained (e : Epoch ι) : Option Nat → List Nat → Prop
  | link, [] => link = none
  | link, id :: ids => link = some id ∧ e.Chained (e.store id).next ids

/-- Stores, their list and the nodes that wait are in order. -/
structure Inv (e : Epoch ι) : Prop where
  owned : ∀ id, (e.store id).enabled = true →
    (e.store id).owner = id ∧ id / segmentSize < e.stores.count
  blank : ∀ id, (e.store id).enabled = false → e.store id = {}
  chained : ∃ ids, e.Chained e.newest ids ∧ ids.Nodup ∧ ∀ id, id ∈ ids ↔ (e.store id).enabled = true
  fresh : ∀ id, (e.store id).Fresh
  old : ∀ id, ∀ w ∈ (e.store id).waiting, w.version ≤ e.version

variable {e e' : Epoch ι} {id me : Nat} {s : Store ι} {l l' : List (Waiting ι)}

/-! ## One store -/

theorem store_put (hid : id / segmentSize < e.stores.count) (s : Store ι) (j : Nat) :
    (e.put id s).store j = if j = id then s else e.store j :=
  SegmentTable.get_modify _ _ _ _ hid

theorem count_put (e : Epoch ι) (id : Nat) (s : Store ι) :
    (e.put id s).stores.count = e.stores.count :=
  SegmentTable.count_modify _ _ _

/-- What changes in one store, changes altogether. -/
theorem waiting_put (hid : id / segmentSize < e.stores.count)
    (h : (l ++ (e.store id).waiting).Perm (l' ++ s.waiting)) :
    (l ++ e.waiting).Perm (l' ++ (e.put id s).waiting) :=
  SegmentTable.flatMap_modify hid h

theorem Chained.congr {link : Option Nat} {ids : List Nat} (h : e.Chained link ids)
    (hn : ∀ id ∈ ids, (e'.store id).next = (e.store id).next) : e'.Chained link ids := by
  induction ids generalizing link with
  | nil => exact h
  | cons id ids ih =>
    refine ⟨h.1, ?_⟩
    rw [hn id (List.mem_cons_self ..)]
    exact ih h.2 fun j hj => hn j (List.mem_cons_of_mem _ hj)

theorem follow_eq {link : Option Nat} {ids : List Nat} (h : e.Chained link ids) {fuel : Nat}
    (hf : ids.length ≤ fuel) : e.follow fuel link = ids := by
  induction ids generalizing link fuel with
  | nil =>
    obtain rfl : link = none := h
    cases fuel <;> rfl
  | cons id ids ih =>
    obtain ⟨rfl, h⟩ := h
    cases fuel with
    | zero => simp at hf
    | succ fuel => rw [follow, ih h (by simpa using hf)]

namespace Inv

theorem congr (hi : e.Inv) (hs : e'.stores = e.stores) (hn : e'.newest = e.newest)
    (hv : e.version ≤ e'.version) : e'.Inv := by
  have hstore : ∀ id, e'.store id = e.store id := fun id => by rw [store, hs, store]
  obtain ⟨ids, hc, hd, hm⟩ := hi.chained
  refine ⟨?_, ?_, ⟨ids, ?_, hd, ?_⟩, ?_, ?_⟩
  · intro id
    rw [hstore, hs]
    exact hi.owned id
  · intro id
    rw [hstore]
    exact hi.blank id
  · rw [hn]
    exact hc.congr fun id _ => by rw [hstore]
  · intro id
    rw [hstore]
    exact hm id
  · intro id
    rw [hstore]
    exact hi.fresh id
  · intro id w
    rw [hstore]
    exact fun hw => (hi.old id w hw).trans hv

theorem put (hi : e.Inv) (he : (e.store id).enabled = true) (hl : (e.store id).Like s)
    (hf : s.Fresh) (ho : ∀ w ∈ s.waiting, w.version ≤ e.version) : (e.put id s).Inv := by
  obtain ⟨howner, hid⟩ := hi.owned id he
  obtain ⟨ids, hc, hd, hm⟩ := hi.chained
  have hstore := store_put hid s
  have henabled : ∀ j, ((e.put id s).store j).enabled = (e.store j).enabled := by
    intro j
    rw [hstore]
    split
    · next h => rw [h, hl.enabled]
    · rfl
  refine ⟨?_, ?_, ⟨ids, ?_, hd, ?_⟩, ?_, ?_⟩
  · intro j hj
    rw [henabled] at hj
    rw [hstore, count_put]
    refine ⟨?_, (hi.owned j hj).2⟩
    split
    · next h => rw [hl.owner, howner, h]
    · exact (hi.owned j hj).1
  · intro j hj
    rw [henabled] at hj
    rw [hstore, if_neg (by rintro rfl; simp [he] at hj)]
    exact hi.blank j hj
  · refine Chained.congr hc fun j _ => ?_
    rw [hstore]
    split
    · next h => rw [h, hl.next]
    · rfl
  · intro j
    rw [henabled]
    exact hm j
  · intro j
    rw [hstore]
    split
    · exact hf
    · exact hi.fresh j
  · intro j
    rw [hstore]
    split
    · exact ho
    · exact hi.old j

theorem new (threshold cacheTime : Int64) : ({ threshold, cacheTime } : Epoch ι).Inv := by
  have hstore : ∀ id, ({ threshold, cacheTime } : Epoch ι).store id = {} :=
    fun id => SegmentTable.get_new id
  refine ⟨fun id h => ?_, fun id _ => hstore id, ⟨[], rfl, List.nodup_nil, fun id => ?_⟩,
    fun id => ?_, fun id => ?_⟩
  · simp [hstore] at h
  · simp [hstore]
  · rw [hstore]
    exact fun w hw => nomatch hw
  · rw [hstore]
    exact fun w hw => nomatch hw

/-! ## The list -/

theorem registered_spec (hi : e.Inv) :
    e.Chained e.newest e.registered ∧ e.registered.Nodup ∧
      ∀ id, id ∈ e.registered ↔ (e.store id).enabled = true := by
  obtain ⟨ids, hc, hd, hm⟩ := hi.chained
  have hsub : ids ⊆ List.range (segmentSize * e.stores.count) := by
    intro id h
    have hlt := (hi.owned id ((hm id).1 h)).2
    simp only [segmentSize] at *
    exact List.mem_range.2 (by omega)
  have hlen := (hd.subperm hsub).length_le
  rw [List.length_range] at hlen
  have heq : e.registered = ids := follow_eq hc hlen
  rw [heq]
  exact ⟨hc, hd, hm⟩

theorem mem_registered (hi : e.Inv) : id ∈ e.registered ↔ (e.store id).enabled = true :=
  hi.registered_spec.2.2 id

end Inv

/-! ## Looking up one's store -/

theorem enter_of_enabled (he : (e.store id).enabled = true) :
    e.enter id = { e with stores := e.stores.reach id } := by
  have hr : (({ e with stores := e.stores.reach id } : Epoch ι).store id).enabled = true := by
    rw [store, SegmentTable.get_reach]
    exact he
  rw [enter, if_pos hr]

theorem enter_of_not_enabled (he : (e.store id).enabled = false) :
    e.enter id = ({ e with stores := e.stores.reach id } : Epoch ι).register id := by
  have hr : (({ e with stores := e.stores.reach id } : Epoch ι).store id).enabled = false := by
    rw [store, SegmentTable.get_reach]
    exact he
  rw [enter, if_neg (by rw [hr]; simp)]

@[simp] theorem version_enter (e : Epoch ι) (id : Nat) : (e.enter id).version = e.version := by
  unfold enter
  dsimp only
  split <;> rfl

@[simp] theorem exitLock_enter (e : Epoch ι) (id : Nat) : (e.enter id).exitLock = e.exitLock := by
  unfold enter
  dsimp only
  split <;> rfl

theorem count_enter (e : Epoch ι) (id : Nat) :
    (e.enter id).stores.count = max e.stores.count (id / segmentSize + 1) := by
  rw [← SegmentTable.count_reach]
  cases he : (e.store id).enabled with
  | true => rw [enter_of_enabled he]
  | false =>
    rw [enter_of_not_enabled he]
    exact SegmentTable.count_modify ..

namespace Inv

/-- The store of one's own id is there; a new one is empty, and is the first on the list. -/
theorem store_enter (hi : e.Inv) (id j : Nat) : (e.enter id).store j =
    if j = id ∧ (e.store id).enabled = false then
      { enabled := true, owner := id, next := e.newest }
    else e.store j := by
  cases he : (e.store id).enabled with
  | true =>
    rw [enter_of_enabled he, if_neg (by simp)]
    exact SegmentTable.get_reach ..
  | false =>
    have hget : (e.stores.reach id).get id = {} := by
      rw [SegmentTable.get_reach]
      exact hi.blank id he
    have hid : id / segmentSize < (e.stores.reach id).count := by
      rw [SegmentTable.count_reach]
      omega
    rw [enter_of_not_enabled he]
    show ((e.stores.reach id).modify id _).get j = _
    rw [SegmentTable.get_modify _ _ _ _ hid, SegmentTable.get_reach]
    by_cases hj : j = id
    · subst hj
      simp only [true_and, if_true]
      rw [show e.stores.get j = {} from hi.blank j he]
      rfl
    · simp [hj, store]

theorem enabled_enter (hi : e.Inv) (id j : Nat) :
    ((e.enter id).store j).enabled = true ↔ j = id ∨ (e.store j).enabled = true := by
  rw [hi.store_enter]
  by_cases hj : j = id
  · subst hj
    cases he : (e.store j).enabled <;> simp [he]
  · simp [hj]

theorem waiting_store_enter (hi : e.Inv) (id j : Nat) :
    ((e.enter id).store j).waiting = (e.store j).waiting := by
  rw [hi.store_enter]
  split
  · next h => rw [h.1, hi.blank id h.2]
  · rfl

theorem lastRetired_enter (hi : e.Inv) (id j : Nat) :
    ((e.enter id).store j).lastRetired = (e.store j).lastRetired := by
  rw [hi.store_enter]
  split
  · next h => rw [h.1, hi.blank id h.2]
  · rfl

theorem published_enter (hi : e.Inv) (id j : Nat) :
    ((e.enter id).store j).published = (e.store j).published := by
  rw [hi.store_enter]
  split
  · next h => rw [h.1, hi.blank id h.2]
  · rfl

theorem sequence_enter (hi : e.Inv) (id j : Nat) :
    ((e.enter id).store j).sequence = (e.store j).sequence := by
  rw [hi.store_enter]
  split
  · next h => rw [h.1, hi.blank id h.2]
  · rfl

end Inv

theorem waiting_enter (e : Epoch ι) (id : Nat) : (e.enter id).waiting.Perm e.waiting := by
  have hreach : ({ e with stores := e.stores.reach id } : Epoch ι).waiting = e.waiting :=
    SegmentTable.flatMap_reach _ _ rfl
  cases he : (e.store id).enabled with
  | true => rw [enter_of_enabled he, hreach]
  | false =>
    have hid : id / segmentSize < (e.stores.reach id).count := by
      rw [SegmentTable.count_reach]
      omega
    rw [enter_of_not_enabled he, ← hreach]
    exact SegmentTable.flatMap_modify_of_eq hid rfl

theorem Inv.enter (hi : e.Inv) (id : Nat) : (e.enter id).Inv := by
  obtain ⟨ids, hc, hd, hm⟩ := hi.chained
  refine ⟨?_, ?_, ?_, ?_, ?_⟩
  · intro j hj
    rw [count_enter]
    rcases (hi.enabled_enter id j).1 hj with rfl | he
    · refine ⟨?_, by omega⟩
      rw [hi.store_enter]
      split
      · rfl
      · next h => exact (hi.owned j (by simpa using h)).1
    · obtain ⟨howner, hlt⟩ := hi.owned j he
      have hne : ¬ (j = id ∧ (e.store id).enabled = false) := by
        rintro ⟨rfl, h⟩
        simp [he] at h
      refine ⟨?_, by omega⟩
      rw [hi.store_enter, if_neg hne]
      exact howner
  · intro j hj
    obtain ⟨hne, he⟩ : j ≠ id ∧ (e.store j).enabled = false := by
      rw [← Bool.not_eq_true, hi.enabled_enter, not_or, Bool.not_eq_true] at hj
      exact hj
    rw [hi.store_enter, if_neg (fun h => hne h.1)]
    exact hi.blank j he
  · cases he : (e.store id).enabled with
    | true =>
      refine ⟨ids, ?_, hd, fun j => ?_⟩
      · rw [enter_of_enabled he]
        exact hc.congr fun j _ => congrArg Store.next (SegmentTable.get_reach ..)
      · rw [hi.enabled_enter, hm]
        exact ⟨Or.inr, fun h => h.elim (fun h => h ▸ he) fun h => h⟩
    | false =>
      -- the new store comes before all others, none of which it is
      have hnot : id ∉ ids := fun h => by simp [(hm id).1 h] at he
      refine ⟨id :: ids, ⟨?_, ?_⟩, List.nodup_cons.2 ⟨hnot, hd⟩, fun j => ?_⟩
      · rw [enter_of_not_enabled he]
        rfl
      · rw [hi.store_enter, if_pos ⟨rfl, he⟩]
        refine hc.congr fun j hj => ?_
        rw [hi.store_enter, if_neg]
        rintro ⟨rfl, -⟩
        exact hnot hj
      · rw [hi.enabled_enter, List.mem_cons, hm]
  · intro j w hw
    rw [hi.waiting_store_enter] at hw
    rw [hi.lastRetired_enter]
    exact hi.fresh j w hw
  · intro j w hw
    rw [hi.waiting_store_enter] at hw
    rw [version_enter]
    exact hi.old j w hw

/-- A thread whose store is registered changes nothing when it looks it up again. -/
theorem Inv.enter_eq (hi : e.Inv) (he : (e.store id).enabled = true) : e.enter id = e := by
  have hlt := (hi.owned id he).2
  have hreach : e.stores.reach id = e.stores := by
    rw [SegmentTable.reach_eq, Nat.sub_eq_zero_of_le, SegmentTable.extend_zero]
    simp only [SegmentTable.count] at hlt
    omega
  rw [enter_of_enabled he, hreach]

/-! ## The oldest version in use -/

/-- A version that is the global one, or that some store has published. -/
def InUse (e : Epoch ι) (v : Nat) : Prop :=
  v = e.version ∨ ∃ id, (e.store id).enabled = true ∧ (e.store id).published = some v

theorem foldl_min_isLeast (f : Nat → Option Nat) (ids : List Nat) (v : Nat) :
    IsLeast {x | x = v ∨ ∃ id ∈ ids, f id = some x}
      (ids.foldl (fun least id => min least ((f id).getD least)) v) := by
  induction ids generalizing v with
  | nil => simp [IsLeast, lowerBounds]
  | cons id ids ih =>
    rw [List.foldl_cons]
    cases hid : f id with
    | none =>
      simp only [Option.getD_none, Nat.min_self]
      obtain ⟨hmem, hle⟩ := ih v
      refine ⟨hmem.imp_right fun ⟨j, hj, hf⟩ => ⟨j, List.mem_cons_of_mem _ hj, hf⟩, ?_⟩
      rintro x (rfl | ⟨j, hj, hf⟩)
      · exact hle (.inl rfl)
      · rcases List.mem_cons.1 hj with rfl | hj
        · simp [hid] at hf
        · exact hle (.inr ⟨j, hj, hf⟩)
    | some p =>
      simp only [Option.getD_some]
      obtain ⟨hmem, hle⟩ := ih (min v p)
      have hbase := hle (.inl rfl)
      constructor
      · rcases hmem with h | ⟨j, hj, hf⟩
        · rcases Nat.le_total v p with hvp | hvp
          · exact .inl (h.trans (Nat.min_eq_left hvp))
          · exact .inr ⟨id, List.mem_cons_self .., by rw [hid, h, Nat.min_eq_right hvp]⟩
        · exact .inr ⟨j, List.mem_cons_of_mem _ hj, hf⟩
      · rintro x (rfl | ⟨j, hj, hf⟩)
        · exact hbase.trans (Nat.min_le_left ..)
        · rcases List.mem_cons.1 hj with rfl | hj
          · cases hid.symm.trans hf
            exact hbase.trans (Nat.min_le_right ..)
          · exact hle (.inr ⟨j, hj, hf⟩)

theorem Inv.oldestVersion_isLeast (hi : e.Inv) : IsLeast {v | e.InUse v} e.oldestVersion := by
  have h := foldl_min_isLeast (fun id => (e.store id).published) e.registered e.version
  simp only [hi.mem_registered] at h
  exact h

/-- Looking up one's store does not change which versions are in use. -/
theorem Inv.inUse_enter (hi : e.Inv) (id v : Nat) : (e.enter id).InUse v ↔ e.InUse v := by
  unfold InUse
  simp only [version_enter, hi.published_enter, hi.enabled_enter]
  refine or_congr Iff.rfl (exists_congr fun j => ⟨?_, And.imp_left .inr⟩)
  rintro ⟨h, hp⟩
  refine ⟨?_, hp⟩
  by_contra he
  simp [hi.blank j (by simpa using he)] at hp

end Epoch

end BackoffStack
