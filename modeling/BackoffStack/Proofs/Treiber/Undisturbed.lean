/-
An attempt that nobody comes in between does, access by access, what the operations of the stack do at
once.
-/
import BackoffStack.Proofs.Treiber.Attempts
import BackoffStack.Proofs.Treiber.Reuse

namespace BackoffStack

variable {α : Type}

namespace Memory

variable {m m' : Memory α} {s : TreiberStack α} {a : Address}

/-- Accesses of one thread, with nothing in between. -/
def advance (t : Nat) : Nat → Memory α → Memory α
  | 0, m => m
  | n + 1, m => advance t n (m.happen (.step t))

theorem advance_eq_foldl (t n : Nat) (m : Memory α) :
    m.advance t n = (List.replicate n (.step t)).foldl happen m := by
  induction n generalizing m with
  | zero => rfl
  | succ n ih => exact ih _

/-- Memory that holds the cells of a stack, with no attempt under way. -/
structure Holds (m : Memory α) (s : TreiberStack α) : Prop where
  order : ∃ chain spot, m.Inv chain spot ∧ chain.map (·.2) = s.cells
  made : m.made = s.made
  idle : ∀ t, m.attempts.find? t = none

theorem Holds.new (threshold cacheTime : Int64) :
    ({} : Memory α).Holds (TreiberStack.new threshold cacheTime) :=
  ⟨⟨[], _, .new, rfl⟩, rfl, fun _ => rfl⟩

/-- What memory holds after one event and some accesses of a thread shows in the chain that is found from
the top. -/
theorem Inv.holds {spot : Address → Spot} (hi : m.Inv chain spot) {e : Event α} {t n : Nat}
    (he : (m.happen e).advance t n = m') (chain' : List (Address × Cell α))
    (hc : Chained m'.nodes m'.top chain') (hcells : chain'.map (·.2) = s.cells) (hmade : m'.made = s.made)
    (hidle : ∀ t, m'.attempts.find? t = none) : m'.Holds s := by
  obtain ⟨found, spot', hi'⟩ := hi.foldl (e :: List.replicate n (.step t))
  rw [List.foldl_cons, ← advance_eq_foldl, he] at hi'
  exact ⟨⟨found, spot', hi', hi'.chained.unique hc ▸ hcells⟩, hmade, hidle⟩

theorem pushes (hidle : ∀ t, m.attempts.find? t = none) (ha : m.nodes a = none) (t : Nat)
    (v : α) :
    let m' := (m.happen (.push t v a)).advance t 3
    m'.top = some a ∧ m'.made = m.made + 1 ∧
      m'.nodes = Function.update m.nodes a (some ⟨.make m.made v, m.top⟩) ∧
      ∀ u, m'.attempts.find? u = none := by
  simp +contextual [happen, hidle, ha, advance, access, goOn, put, Flights.find?_insert, Flights.find?_erase]

theorem pops_nothing (hidle : ∀ t, m.attempts.find? t = none) (htop : m.top = none) (t : Nat) :
    let m' := (m.happen (.pop t)).advance t 7
    m'.top = none ∧ m'.made = m.made ∧ m'.nodes = m.nodes ∧
      m'.answers = (t, .empty) :: m.answers ∧ ∀ u, m'.attempts.find? u = none := by
  simp +contextual [happen, hidle, htop, advance, access, goOn, Flights.find?_insert, Flights.find?_erase]

theorem pops (hidle : ∀ t, m.attempts.find? t = none) (htop : m.top = some a) {l : Link α}
    (hl : m.nodes a = some l) (t : Nat) :
    let m' := (m.happen (.pop t)).advance t 7
    m'.top = l.next ∧ m'.made = m.made ∧ m'.nodes = m.nodes ∧
      m'.answers = (t, .popped l.cell.value) :: m.answers ∧ ∀ u, m'.attempts.find? u = none := by
  simp +contextual [happen, hidle, htop, hl, advance, access, goOn, Flights.find?_insert, Flights.find?_erase]

namespace Holds

/-- A push that nobody comes in between goes through, as it does at once. -/
theorem tryPush (h : m.Holds s) (hs : s.contended = false) (ha : m.nodes a = none) (t : Nat)
    (v : α) :
    ∃ s', s.tryPush v = (.pushed, s') ∧ ((m.happen (.push t v a)).advance t 3).Holds s' := by
  obtain ⟨⟨chain, spot, hi, hcells⟩, hmade, hidle⟩ := h
  obtain ⟨htop, hmade', hnodes, hidle'⟩ := pushes hidle ha t v
  refine ⟨_, if_neg (by simp [hs]), hi.holds rfl ((a, .make m.made v) :: chain) ?_ ?_ ?_ hidle'⟩
  · rw [htop, hnodes]
    refine ⟨rfl, m.top, Function.update_self .., hi.chained.congr fun b hb => Function.update_of_ne ?_ ..⟩
    rintro rfl
    cases (hi.eq_free ha).symm.trans ((hi.linked b).1 hb)
  · simp [hcells, hmade]
  · rw [hmade', hmade]

/-- A pop that nobody comes in between takes off what it takes off at once, and answers the same, but for
how its guard is dropped. -/
theorem tryPop (h : m.Holds s) (hr : s.Ready) (hs : s.contended = false) (t : Nat) (who : Identity)
    (now : Int64) :
    ∃ answer ended s', s.tryPop who now = (answer.unpinned ended, s') ∧ s'.Ready ∧
      ((m.happen (.pop t)).advance t 7).Holds s' ∧
      ((m.happen (.pop t)).advance t 7).answers = (t, answer) :: m.answers := by
  obtain ⟨⟨chain, spot, hi, hcells⟩, hmade, hidle⟩ := h
  obtain ⟨g, e₁, e₂, e₃, added, freed, ended, s', hpop, hst⟩ := hr.tryPop_stages hs who now
  have hleft : s'.cells = (TreiberStack.popCells s.cells).2 := by rw [hst.eq]
  have hkept : s'.made = s.made := by rw [hst.eq]
  refine ⟨_, _, s', hpop, ⟨hst.unpins.inv, hst.unpins.idle⟩, ?_⟩
  have hchained := hi.chained
  rw [← hcells] at hleft ⊢
  cases chain with
  | nil =>
    obtain ⟨htop, hmade', hnodes, hanswers, hidle'⟩ := pops_nothing hidle hchained t
    exact ⟨hi.holds rfl [] htop hleft.symm (by rw [hmade', hmade, hkept]) hidle', hanswers⟩
  | cons node rest =>
    obtain ⟨b, cell⟩ := node
    obtain ⟨htop, next, hl, hrest⟩ := hchained
    obtain ⟨htop', hmade', hnodes, hanswers, hidle'⟩ := pops hidle htop hl t
    refine ⟨hi.holds rfl rest ?_ hleft.symm (by rw [hmade', hmade, hkept]) hidle', hanswers⟩
    rw [htop', hnodes]
    exact hrest

end Holds

end Memory

end BackoffStack
