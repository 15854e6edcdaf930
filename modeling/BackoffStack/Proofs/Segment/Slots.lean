/-
What all slots of a table hold together. Growth adds nothing to it, and a change of one slot changes
it by as much as that slot.
-/
import BackoffStack.Proofs.Places
import BackoffStack.Segment.Facts

namespace BackoffStack

namespace SegmentTable

variable {α γ : Type} {f : α → List γ} {id : Nat} {l l' : List γ}

theorem flatMap_changeSlot {s : Segment α} {g : α → α} (hlt : id % segmentSize < segmentSize)
    (h : (l ++ f s[id % segmentSize]).Perm (l' ++ f (g s[id % segmentSize]))) :
    (l ++ s.toList.flatMap f).Perm (l' ++ (changeSlot s id g).toList.flatMap f) := by
  rw [changeSlot, Vector.toList_set]
  refine flatMap_set_perm (by simpa using hlt) ?_
  rwa [Vector.getElem_toList]

variable [Inhabited α]

theorem get_of_segment? {t : SegmentTable α} {k j : Nat} {s : Segment α} (hs : t.segment? k = some s)
    (hj : j < segmentSize) : t.get (segmentSize * k + j) = s[j] := by
  have hk : (segmentSize * k + j) / segmentSize = k := by unfold segmentSize at *; omega
  have hm : (segmentSize * k + j) % segmentSize = j := by unfold segmentSize at *; omega
  unfold get
  simp only [hk, hs, hm]

/-- Every slot of the table is the slot of some id. -/
theorem exists_get_of_mem_slots {t : SegmentTable α} {a : α} (h : a ∈ t.slots) :
    ∃ id, t.get id = a := by
  have hget : ∀ k (s : Segment α), t.segment? k = some s → a ∈ s.toList → ∃ id, t.get id = a := by
    intro k s hs ha
    obtain ⟨j, hj, hja⟩ := List.mem_iff_getElem.1 ha
    rw [Vector.length_toList] at hj
    refine ⟨segmentSize * k + j, ?_⟩
    rw [get_of_segment? hs hj, ← hja, Vector.getElem_toList]
  rcases List.mem_append.1 h with h | h
  · obtain ⟨s, hs, ha⟩ := List.mem_flatMap.1 h
    obtain ⟨k, hk, rfl⟩ := List.mem_iff_getElem.1 hs
    exact hget (k + 1) _ (by simp [segment?]) ha
  · exact hget 0 t.head rfl h

theorem ext_get {t t' : SegmentTable α} (hc : t.count = t'.count) (h : ∀ id, t.get id = t'.get id) :
    t = t' := by
  have hsegment : ∀ k s s', t.segment? k = some s → t'.segment? k = some s' → s = s' := by
    intro k s s' hs hs'
    ext j hj
    rw [← get_of_segment? hs hj, ← get_of_segment? hs' hj, h]
  obtain ⟨head, appended⟩ := t
  obtain ⟨head', appended'⟩ := t'
  have hsize : appended.size = appended'.size := Nat.succ.inj hc
  congr
  · exact hsegment 0 head head' rfl rfl
  · refine Array.ext hsize fun k hk hk' => hsegment (k + 1) _ _ ?_ ?_
    · simp [segment?, hk]
    · simp [segment?, hk']

/-- What changes in one slot, changes in the table. -/
theorem flatMap_modify {t : SegmentTable α} (hid : id / segmentSize < t.count) {g : α → α}
    (h : (l ++ f (t.get id)).Perm (l' ++ f (g (t.get id)))) :
    (l ++ t.slots.flatMap f).Perm (l' ++ (t.modify id g).slots.flatMap f) := by
  have hlt : id % segmentSize < segmentSize := Nat.mod_lt _ (by decide)
  unfold slots modify get at *
  cases hk : id / segmentSize with
  | zero =>
    rw [hk] at h
    have hs := flatMap_changeSlot hlt h
    simp only [List.flatMap_append]
    exact (List.perm_append_comm_assoc ..).trans
      ((hs.append_left _).trans (List.perm_append_comm_assoc ..))
  | succ k =>
    rw [hk] at h hid
    have hk' : k < t.appended.size := by simpa [count] using hid
    have hseg : t.segment? (k + 1) = some t.appended[k] := by simp [segment?, hk']
    simp only [hseg] at h
    have hs : (l ++ (t.appended.toList.flatMap fun s => s.toList.flatMap f)).Perm
        (l' ++ ((t.appended.toList.set k (changeSlot t.appended[k] id g)).flatMap
          fun s => s.toList.flatMap f)) :=
      flatMap_set_perm (by simpa using hk') (by simpa using flatMap_changeSlot hlt h)
    have hmod : (t.appended.modify k (changeSlot · id g)).toList =
        t.appended.toList.set k (changeSlot t.appended[k] id g) := by
      simp [Array.toList_modify, List.modify_eq_set_getElem?, hk']
    simp only [List.flatMap_append, List.flatMap_assoc, hmod, ← List.append_assoc]
    exact hs.append_right _

theorem flatMap_modify_of_eq {t : SegmentTable α} (hid : id / segmentSize < t.count) {g : α → α}
    (h : f (g (t.get id)) = f (t.get id)) :
    ((t.modify id g).slots.flatMap f).Perm (t.slots.flatMap f) := by
  have hp : ([] ++ t.slots.flatMap f).Perm ([] ++ (t.modify id g).slots.flatMap f) :=
    flatMap_modify hid (by rw [h])
  exact hp.symm

/-- A look-up changes nothing where fresh slots hold nothing. -/
theorem flatMap_reach (t : SegmentTable α) (id : Nat) (hf : f default = []) :
    (t.reach id).slots.flatMap f = t.slots.flatMap f := by
  have hfresh : ∀ a ∈ (fresh : Segment α), f a = [] := by simp [fresh, hf]
  rw [reach_eq]
  simpa [slots, extend, List.flatMap_assoc] using fun _ => hfresh

end SegmentTable

end BackoffStack
