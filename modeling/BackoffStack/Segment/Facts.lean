/-
What a look-up does to a table: it appends the segments that are missing up to the one it is after,
and no slot changes. What a change of one slot does: no other slot changes.
-/
import BackoffStack.Segment.Table

namespace BackoffStack.SegmentTable

variable {α : Type}

/-! ## One slot -/

theorem count_modify (t : SegmentTable α) (id : Nat) (f : α → α) :
    (t.modify id f).count = t.count := by
  unfold modify count
  split <;> simp

theorem isSome_segment? (t : SegmentTable α) (k : Nat) :
    (t.segment? k).isSome = decide (k < t.count) := by
  cases k <;> grind [segment?, count]

theorem segment?_modify (t : SegmentTable α) (id : Nat) (f : α → α) (k : Nat) :
    (t.modify id f).segment? k =
      if k = id / segmentSize then (t.segment? k).map (changeSlot · id f) else t.segment? k := by
  unfold modify
  cases h : id / segmentSize with
  | zero => cases k <;> simp [segment?]
  | succ j => cases k <;> grind [segment?]

theorem getElem_changeSlot (s : Segment α) (id j : Nat) (f : α → α) (h : j < segmentSize) :
    (changeSlot s id f)[j] = if j = id % segmentSize then f s[j] else s[j] := by
  unfold changeSlot
  rw [Vector.getElem_set]
  by_cases hj : j = id % segmentSize
  · subst hj
    simp
  · simp [hj, Ne.symm hj]

variable [Inhabited α]

/-- A slot that nobody has used holds the default. -/
theorem get_new (id : Nat) : (new : SegmentTable α).get id = default := by
  unfold get new
  cases id / segmentSize <;> simp [segment?, fresh]

theorem get_modify (t : SegmentTable α) (id j : Nat) (f : α → α)
    (h : id / segmentSize < t.count) :
    (t.modify id f).get j = if j = id then f (t.get j) else t.get j := by
  have hid : j = id ↔ j / segmentSize = id / segmentSize ∧ j % segmentSize = id % segmentSize := by
    unfold segmentSize; omega
  have hs := t.isSome_segment? (id / segmentSize)
  unfold get
  rw [segment?_modify]
  by_cases hk : j / segmentSize = id / segmentSize
  · rw [hk]
    cases hq : t.segment? (id / segmentSize) with
    | none => simp_all
    | some s => simp [getElem_changeSlot, hid, hk]
  · simp [hk, hid]

/-! ## Growth -/

/-- The table with `n` fresh segments more. -/
def extend (t : SegmentTable α) (n : Nat) : SegmentTable α :=
  { t with appended := t.appended ++ Array.replicate n fresh }

@[simp] theorem extend_zero (t : SegmentTable α) : t.extend 0 = t := by simp [extend]

theorem extend_succ (t : SegmentTable α) (n : Nat) :
    t.extend (n + 1) =
      ({ t with appended := t.appended.push fresh } : SegmentTable α).extend n := by
  simp [extend, Array.replicate_succ', ← Array.append_assoc]

theorem count_extend (t : SegmentTable α) (n : Nat) : (t.extend n).count = t.count + n := by
  simp [extend, count]
  omega

/-- Growth changes no slot: those of a segment that is missing hold the default already. -/
theorem get_extend (t : SegmentTable α) (n id : Nat) : (t.extend n).get id = t.get id := by
  unfold get extend
  cases id / segmentSize with
  | zero => rfl
  | succ k =>
    by_cases hk : k < t.appended.size
    · simp [segment?, Array.getElem?_append, hk]
    · by_cases hn : k - t.appended.size < n <;>
        simp [segment?, Array.getElem?_append, hk, hn, fresh]

/-! ## Look-ups -/

namespace Walk

theorem run_of_arrived (n : Nat) (w : Walk) (t : SegmentTable α) (h : w.point = .arrived) :
    w.run n t = (w, t) := by
  induction n with
  | zero => rfl
  | succ n ih => simp [run, step, h, ih]

theorem run_succ (n : Nat) (w : Walk) (t : SegmentTable α) :
    w.run (n + 1) t = (w.step t).1.run n (w.step t).2 := rfl

/-- A look-up that is not disturbed appends the segments that are missing, and nothing else. -/
theorem run_of_look (n : Nat) (w : Walk) (t : SegmentTable α) (h : w.point = .look)
    (hw : w.place ≤ t.appended.size) (hn : length w.rest ≤ n) :
    (w.run n t).2 = t.extend (w.place + w.rest / segmentSize - t.appended.size) := by
  induction hk : w.rest / segmentSize generalizing n w t with
  | zero =>
    have hr : w.rest < segmentSize := by simp only [segmentSize] at *; omega
    obtain ⟨n, rfl⟩ : ∃ m, n = m + 1 := ⟨n - 1, by simp only [length] at hn; omega⟩
    have hs : w.step t = ({ w with point := .arrived }, t) := by simp [step, h, hr]
    rw [run_succ, hs, run_of_arrived _ _ _ rfl, Nat.add_zero, Nat.sub_eq_zero_of_le hw, extend_zero]
  | succ k ih =>
    have hr : ¬ w.rest < segmentSize := by simp only [segmentSize] at *; omega
    have ha : w.advance.rest / segmentSize = k := by simp only [advance, segmentSize] at *; omega
    simp only [length, hk] at hn
    by_cases hp : w.place < t.appended.size
    · obtain ⟨n, rfl⟩ : ∃ m, n = m + 1 := ⟨n - 1, by omega⟩
      have hs : w.step t = (w.advance, t) := by simp [step, h, hr, hp]
      rw [run_succ, hs, ih n w.advance t rfl hp (by simp only [length, ha]; omega) ha]
      simp only [advance, Nat.add_assoc, Nat.add_comm 1]
    · obtain ⟨n, rfl⟩ : ∃ m, n = m + 1 + 1 := ⟨n - 2, by omega⟩
      have he : t.appended.size = w.place := by omega
      have hs : w.step t = ({ w with point := .link }, t) := by simp [step, h, hr, hp]
      have hl : ({ w with point := .link } : Walk).step t
          = (w.advance, { t with appended := t.appended.push fresh }) := by
        simp [step, hp, advance]
      rw [run_succ, hs, run_succ, hl, ih n w.advance _ rfl (by simp [advance, he])
        (by simp only [length, ha]; omega) ha]
      simp only [advance, Array.size_push, he, Nat.add_sub_cancel_left, extend_succ]

end Walk

theorem reach_eq (t : SegmentTable α) (id : Nat) :
    t.reach id = t.extend (id / segmentSize - t.appended.size) := by
  have := Walk.run_of_look (Walk.length id) (Walk.start id) t rfl (Nat.zero_le _) (Nat.le_refl _)
  simpa [reach, Walk.start] using this

@[simp] theorem get_reach (t : SegmentTable α) (id j : Nat) : (t.reach id).get j = t.get j := by
  rw [reach_eq, get_extend]

theorem count_reach (t : SegmentTable α) (id : Nat) :
    (t.reach id).count = max t.count (id / segmentSize + 1) := by
  rw [reach_eq, count_extend, count]; omega

theorem get_set_reach (t : SegmentTable α) (id j : Nat) (a : α) :
    ((t.reach id).set id a).get j = if j = id then a else t.get j := by
  rw [set, get_modify _ _ _ _ (by rw [count_reach]; omega), get_reach]

end BackoffStack.SegmentTable
