/-
Reclamation is safe: in any run of any number of threads, no node that was stamped in the course of an
acquisition is freed before the handle of that acquisition is given back (`Crowd.reclaims_safely`).
-/
import BackoffStack.Proofs.Crowd.Steps

namespace BackoffStack.Crowd

variable {ι : Type} {c : Crowd ι} {g : Ledger} {ids : List Nat}

/-- What is shared is in order, and so is everything that is left to do. -/
structure Inv (c : Crowd ι) (g : Ledger) (ids : List Nat) : Prop where
  shared : c.shared.Inv g ids
  ok : ∀ a, ∀ access ∈ c.todo a, access.Ok c.shared g ids a
  tail : ∀ a, ∀ access ∈ (c.todo a).tail, access.urgent = false

namespace Inv

theorem new (threshold cacheTime wall : Int64) :
    ({ shared := { epoch := { threshold, cacheTime }, wall } } : Crowd ι).Inv {} [] where
  shared :=
    have hstore : ∀ id, ({ epoch := { threshold, cacheTime }, wall } : Shared ι).store id = {} :=
      fun id => SegmentTable.get_new id
    { version := rfl
      chained := rfl
      enabled := fun id h => by simp [hstore] at h
      settled := fun _ => nofun
      held := nofun
      cached := ⟨Nat.le_refl _, nofun⟩ }
  ok _ := nofun
  tail _ := nofun

/-- The accesses that are left to others stay in order, and those that an actor gets are. -/
theorem assign (hi : c.Inv g ids) {s : Shared ι} {g' : Ledger} {ids' : List Nat} {a : Actor}
    {accesses : List (Access ι)} (hs : s.Inv g' ids')
    (hothers : ∀ b, b ≠ a → ∀ x ∈ c.todo b, x.Ok s g' ids' b)
    (hown : ∀ x ∈ accesses, x.Ok s g' ids' a) (hcalm : ∀ x ∈ accesses.tail, x.urgent = false) :
    (({ c with shared := s } : Crowd ι).assign a accesses).Inv g' ids' := by
  have htodo : ∀ b, (({ c with shared := s } : Crowd ι).assign a accesses).todo b =
      if b = a then accesses else c.todo b := fun b => Function.update_apply ..
  refine ⟨hs, fun b => ?_, fun b => ?_⟩
  · rw [htodo]
    split
    · next h => exact h ▸ hown
    · next h => exact hothers b h
  · rw [htodo]
    split
    · exact hcalm
    · exact hi.tail b

theorem step (hi : c.Inv g ids) {a : Actor} {access : Access ι} {rest : List (Access ι)}
    (htodo : c.todo a = access :: rest) {done : Done ι} {ids' : List Nat}
    (hf : done.Fits a c.shared g ids ids') :
    (({ c with shared := done.shared } : Crowd ι).assign a (done.next ++ rest)).Inv
      (g.enterAll done.mark?.toList) ids' := by
  have hcalm : ∀ x ∈ rest, x.urgent = false := fun x hx => hi.tail a x (by rw [htodo]; exact hx)
  refine hi.assign hf.inv (fun b hb x hx => ?_) (fun x hx => ?_) fun x hx => ?_
  · exact hf.onward.ok (hf.onward.exit b hb) (.inl hb) (hi.ok b x hx)
  · rcases List.mem_append.1 hx with hx | hx
    · exact hf.next x hx
    · have hok := hi.ok a x (htodo ▸ List.mem_cons_of_mem _ hx)
      exact hf.onward.ok hf.exit (.inr (hcalm x hx)) hok
  · have htail := hf.tail
    cases hnext : done.next with
    | nil =>
      rw [hnext] at hx
      exact hcalm x (List.mem_of_mem_tail hx)
    | cons y next =>
      rw [hnext] at hx htail
      rcases List.mem_append.1 hx with hx | hx
      · exact htail x hx
      · exact hcalm x hx

theorem plan_ok (c : Crowd ι) (g : Ledger) (ids : List Nat) (a : Actor) (e : Errand ι) :
    (∀ x ∈ c.plan a e, x.Ok c.shared g ids a) ∧ (c.plan a e).tail = [] := by
  have one : ∀ access : Access ι, access.Ok c.shared g ids a →
      (∀ x ∈ [access], x.Ok c.shared g ids a) ∧ [access].tail = [] := by
    intro access h
    exact ⟨fun x hx => List.mem_singleton.1 hx ▸ h, rfl⟩
  cases e with
  | acquire =>
    cases a with
    | live n => exact one _ trivial
    | exiting n => exact one _ trivial
  | release h =>
    unfold plan
    dsimp only
    split
    · next h => exact one _ ⟨h.2, h.1⟩
    · exact ⟨nofun, rfl⟩
  | add node => exact one _ trivial
  | retire => exact one _ trivial

theorem start (hi : c.Inv g ids) (a : Actor) (e : Errand ι) :
    (c.assign a (c.plan a e)).Inv g ids := by
  obtain ⟨hok, htail⟩ := plan_ok c g ids a e
  exact hi.assign hi.shared (fun b _ => hi.ok b) hok (by rw [htail]; nofun)

/-- Nothing changes for who has something left to do. -/
theorem onward (hi : c.Inv g ids) {s : Shared ι} (hs : s.Inv g ids) {a : Actor}
    (htodo : c.todo a = []) (ho : Onward a c.shared g ids s g ids) :
    ({ c with shared := s } : Crowd ι).Inv g ids := by
  refine ⟨hs, fun b x hx => ?_, hi.tail⟩
  have hb : b ≠ a := by
    rintro rfl
    rw [htodo] at hx
    cases hx
  exact ho.ok (ho.exit b hb) (.inl hb) (hi.ok b x hx)

theorem leave (hi : c.Inv g ids) {a : Actor} (htodo : c.todo a = []) (hx : c.shared.exit = some a) :
    ({ c with shared := { c.shared with exit := none } } : Crowd ι).Inv g ids := by
  have hs := hi.shared
  refine hi.onward ⟨hs.version, hs.chained, hs.enabled, hs.settled, hs.held, hs.cached⟩ htodo ?_
  exact ⟨Nat.le_refl _, fun _ _ _ hh => .inl hh, fun _ hm => hm, fun _ _ => rfl, fun _ hen => hen,
    fun _ => ⟨fun _ => ⟨rfl, rfl, rfl⟩, rfl, rfl⟩, fun _ _ hb => hb, fun _ _ => ⟨rfl, rfl⟩,
    fun b hb h => absurd (Option.some.inj (h.symm.trans hx)) hb⟩

/-- The wall clock is nobody's concern. -/
theorem wall (hi : c.Inv g ids) (micros : Int64) :
    ({ c with shared := { c.shared with wall := micros } } : Crowd ι).Inv g ids := by
  have hq : c.shared.Quiet { c.shared with wall := micros } := ⟨rfl, rfl, rfl, rfl, fun _ => .refl _⟩
  refine ⟨hi.shared.quiet hq hi.shared.cached, fun b x hx => ?_, hi.tail⟩
  obtain ⟨a, ha⟩ : ∃ a, b ≠ a := by
    cases b with
    | live n => exact ⟨.exiting n, nofun⟩
    | exiting n => exact ⟨.live n, nofun⟩
  exact (Onward.quiet hq).ok (fun h => h) (.inl ha) (hi.ok b x hx)

theorem happen (hi : c.Inv g ids) (e : Event ι) : ∃ ids',
    g.Admits (c.happen e).2.toList ∧ (c.happen e).1.Inv (g.enterAll (c.happen e).2.toList) ids' := by
  unfold Crowd.happen
  cases e with
  | start a errand =>
    dsimp only
    cases c.todo a with
    | nil => exact ⟨ids, trivial, hi.start a errand⟩
    | cons access rest => exact ⟨ids, trivial, hi⟩
  | step a =>
    dsimp only
    cases htodo : c.todo a with
    | nil => exact ⟨ids, trivial, hi⟩
    | cons access rest =>
      obtain ⟨ids', hf⟩ := Access.fits hi.shared (hi.ok a access (by rw [htodo]; exact .head _))
      exact ⟨ids', hf.admits, hi.step htodo hf⟩
  | leave a =>
    dsimp only
    cases htodo : c.todo a with
    | nil =>
      dsimp only
      split
      · next hx => exact ⟨ids, trivial, hi.leave htodo hx⟩
      · exact ⟨ids, trivial, hi⟩
    | cons access rest => exact ⟨ids, trivial, hi⟩
  | wall micros => exact ⟨ids, trivial, hi.wall micros⟩

theorem admits_trace (hi : c.Inv g ids) (events : List (Event ι)) : g.Admits (c.trace events) := by
  induction events generalizing c g ids with
  | nil => trivial
  | cons e events ih =>
    obtain ⟨ids', hadmits, hi'⟩ := hi.happen e
    exact Ledger.admits_append.2 ⟨hadmits, ih hi'⟩

end Inv

/-- No node is freed that was stamped in the course of an acquisition, before the handle of that acquisition
is given back; and nodes are told apart by their stamps. -/
theorem reclaims_safely (threshold cacheTime wall : Int64) (events : List (Event ι)) :
    let c : Crowd ι := { shared := { epoch := { threshold, cacheTime }, wall } }
    Guarded (c.trace events) ∧
      ((c.trace events).filterMap Mark.stamp?).Pairwise (· < ·) := by
  have hadmits := (Inv.new (ι := ι) threshold cacheTime wall).admits_trace events
  exact ⟨hadmits.guarded, hadmits.stamps.2⟩

-- the node waits for the handle, although its thread retires before that
example :
    let c : Crowd Nat := { shared := { epoch := { threshold := 64, cacheTime := 1 } } }
    let run (n : Nat) (errand : Errand Nat) : List (Event Nat) :=
      .start (.live n) errand :: List.replicate 24 (.step (.live n))
    c.trace (run 0 .acquire ++ run 1 (.add (.leaf 7)) ++ run 1 .retire ++ run 0 (.release ⟨1, 0⟩) ++
      run 1 .retire) =
        [.acquired ⟨1, 0⟩ 0, .stamped ⟨1, .leaf 7⟩, .released ⟨1, 0⟩, .freed ⟨1, .leaf 7⟩] := by
  cbv

end BackoffStack.Crowd
