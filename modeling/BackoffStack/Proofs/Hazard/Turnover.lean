/-
What operations do to the nodes of an epoch, and to its counters.

Every node gets the next version when it is added, so that nodes are told apart by their versions. A
turnover says which nodes were added and which were freed: all others wait on, in whatever store. The
counters go along, that of each store with the nodes that wait there, and that of the epoch with all of
them.
-/
import BackoffStack.Proofs.Hazard.Registry

namespace BackoffStack

variable {ι : Type}

/-- A store counts the nodes that wait there. -/
def Store.Tallied (s : Store ι) : Prop := s.count = s.waiting.length

theorem Store.Tallied.receive {s : Store ι} (h : s.Tallied) (nodes : List (Waiting ι)) :
    (s.receive nodes).Tallied := by
  unfold Tallied at *
  simp only [Store.receive, h, List.length_append]
  omega

namespace Epoch

variable {e e' e'' : Epoch ι} {id : Nat} {s : Store ι}
  {added freed added' freed' : List (Waiting ι)}

/-- All stores count the nodes that wait there. -/
def Tallied (e : Epoch ι) : Prop := ∀ id, (e.store id).Tallied

theorem Tallied.put (h : e.Tallied) (hid : id / segmentSize < e.stores.count) (hs : s.Tallied) :
    (e.put id s).Tallied := by
  intro j
  rw [store_put hid]
  split
  · exact hs
  · exact h j

/-- Some nodes were added one after the other, and some were freed. -/
structure Turnover (e : Epoch ι) (added freed : List (Waiting ι)) (e' : Epoch ι) : Prop where
  versions : added.map (·.version) = List.range' (e.version + 1) added.length
  version : e'.version = e.version + added.length
  kept : (added ++ e.waiting).Perm (freed ++ e'.waiting)
  count : e'.waitingCount = e.waitingCount + added.length - freed.length
  tallied : e.Tallied → e'.Tallied

namespace Turnover

theorem version_le (h : e.Turnover added freed e') : e.version ≤ e'.version :=
  h.version ▸ Nat.le_add_right ..

/-- Nodes that are added are newer than those that wait already. -/
theorem later (h : e.Turnover added freed e') : ∀ w ∈ added, e.version < w.version := by
  intro w hw
  have hv : w.version ∈ added.map (·.version) := List.mem_map_of_mem hw
  rw [h.versions, List.mem_range'_1] at hv
  exact hv.1

theorem of_eq (hs : e'.stores = e.stores) (hv : e'.version = e.version)
    (hc : e'.waitingCount = e.waitingCount) : e.Turnover [] [] e' where
  versions := rfl
  version := hv
  kept := .of_eq (by unfold waiting; rw [hs])
  count := by simp [hc]
  tallied h id := by
    unfold store
    rw [hs]
    exact h id

theorem refl (e : Epoch ι) : e.Turnover [] [] e := of_eq rfl rfl rfl

theorem trans (h : e.Turnover added freed e') (h' : e'.Turnover added' freed' e'') :
    e.Turnover (added ++ added') (freed ++ freed') e'' where
  versions := by
    rw [List.map_append, h.versions, h'.versions, h.version, List.length_append,
      ← List.range'_append_1, Nat.add_right_comm]
  version := by
    rw [h'.version, h.version, List.length_append, Nat.add_assoc]
  kept := by
    calc List.Perm (added ++ added' ++ e.waiting) (added' ++ (added ++ e.waiting)) := by
          rw [List.append_assoc]
          exact List.perm_append_comm_assoc ..
      List.Perm _ (added' ++ (freed ++ e'.waiting)) := h.kept.append_left _
      List.Perm _ (freed ++ (added' ++ e'.waiting)) := List.perm_append_comm_assoc ..
      List.Perm _ (freed ++ (freed' ++ e''.waiting)) := h'.kept.append_left _
      List.Perm _ (freed ++ freed' ++ e''.waiting) := by rw [List.append_assoc]
  count := by
    rw [h'.count, h.count]
    simp only [List.length_append]
    omega
  tallied ht := h'.tallied (h.tallied ht)

/-- A store may change in what is published there. -/
theorem put (hid : id / segmentSize < e.stores.count) (hw : s.waiting = (e.store id).waiting)
    (hc : s.count = (e.store id).count) : e.Turnover [] [] (e.put id s) where
  versions := rfl
  version := rfl
  kept := waiting_put hid (by rw [hw])
  count := by simp [Epoch.put]
  tallied ht := ht.put hid (by
    unfold Store.Tallied
    rw [hc, hw]
    exact ht id)

end Turnover

/-- Looking a store up moves no node. -/
theorem Inv.turnover_enter (hi : e.Inv) (id : Nat) : e.Turnover [] [] (e.enter id) where
  versions := rfl
  version := version_enter e id
  kept := (e.waiting_enter id).symm
  count := by
    unfold Epoch.enter
    dsimp only
    split <;> simp [register]
  tallied ht j := by
    rw [hi.store_enter]
    split
    · rfl
    · exact ht j

end Epoch

end BackoffStack
