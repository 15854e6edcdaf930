/-
What the users of a hazard epoch may rely on, as a book that is kept of it: the version so far, and the
acquisitions under way. No node goes that was stamped in the course of one of these.
-/
import BackoffStack.Hazard.Store
import Mathlib.Logic.Function.Basic

namespace BackoffStack

variable {ι : Type}

/-- What happens at an epoch for all to see. -/
inductive Mark (ι : Type) where
  /-- An acquisition has found its version unchanged: its caller has the handle. -/
  | acquired (handle : Handle) (version : Nat)
  /-- A handle is given back, and nothing is published any more. -/
  | released (handle : Handle)
  /-- A node gets its version. -/
  | stamped (node : Waiting ι)
  /-- A node is freed. -/
  | freed (node : Waiting ι)

/-- The version that a node gets. -/
def Mark.stamp? : Mark ι → Option Nat
  | stamped w => some w.version
  | _ => none

/-- The version of an epoch, and under each id the handle that is out and its version. -/
structure Ledger where
  version : Nat := 0
  held : Nat → Option (Handle × Nat) := fun _ => none

namespace Ledger

variable {g g' : Ledger} {m : Mark ι} {marks marks' : List (Mark ι)} {h : Handle} {x version : Nat}

/-- A version that is not above that of the epoch, nor above any that is held. -/
structure Safe (g : Ledger) (x : Nat) : Prop where
  le_version : x ≤ g.version
  le_held : ∀ id h version, g.held id = some (h, version) → x ≤ version

/-- What may happen: a handle is out once only, what is given back is what is out, versions are new, and
no node goes that is newer than a version that is held. -/
def Allows (g : Ledger) : Mark ι → Prop
  | .acquired h version => version = g.version ∧ g.held h.tid = none
  | .released h => ∀ h' version, g.held h.tid = some (h', version) → h' = h
  | .stamped w => w.version = g.version + 1
  | .freed w => g.Safe w.version

/-- The entry that is made. -/
def enter (g : Ledger) : Mark ι → Ledger
  | .acquired h version => { g with held := Function.update g.held h.tid (some (h, version)) }
  | .released h => { g with held := Function.update g.held h.tid none }
  | .stamped _ => { g with version := g.version + 1 }
  | .freed _ => g

/-- What may happen one after the other. -/
def Admits : Ledger → List (Mark ι) → Prop
  | _, [] => True
  | g, m :: marks => g.Allows m ∧ (g.enter m).Admits marks

/-- The entries that are made one after the other. -/
def enterAll (g : Ledger) (marks : List (Mark ι)) : Ledger := marks.foldl enter g

theorem enterAll_cons (g : Ledger) (m : Mark ι) (marks : List (Mark ι)) :
    g.enterAll (m :: marks) = (g.enter m).enterAll marks := rfl

theorem enterAll_append (g : Ledger) (marks marks' : List (Mark ι)) :
    g.enterAll (marks ++ marks') = (g.enterAll marks).enterAll marks' := List.foldl_append ..

theorem admits_append : g.Admits (marks ++ marks') ↔
    g.Admits marks ∧ (g.enterAll marks).Admits marks' := by
  induction marks generalizing g with
  | nil => simp [Admits, enterAll]
  | cons m marks ih =>
    show g.Allows m ∧ (g.enter m).Admits (marks ++ marks') ↔ _
    rw [ih]
    exact and_assoc.symm

theorem version_enterAll (g : Ledger) (marks : List (Mark ι)) :
    g.version ≤ (g.enterAll marks).version := by
  induction marks generalizing g with
  | nil => exact Nat.le_refl _
  | cons m marks ih =>
    refine Nat.le_trans ?_ (ih (g.enter m))
    cases m <;> simp [enter]

/-- A handle is out until it is given back. -/
theorem held_enter (ha : g.Allows m) (hh : g.held h.tid = some (h, version))
    (hm : m ≠ .released h) : (g.enter m).held h.tid = some (h, version) := by
  cases m with
  | acquired h' version' =>
    by_cases ht : h.tid = h'.tid
    · rw [ht, ha.2] at hh
      cases hh
    · exact (Function.update_of_ne ht ..).trans hh
  | released h' =>
    by_cases ht : h.tid = h'.tid
    · cases ha h version (ht ▸ hh)
      exact absurd rfl hm
    · exact (Function.update_of_ne ht ..).trans hh
  | stamped w => exact hh
  | freed w => exact hh

theorem held_enterAll (ha : g.Admits marks) (hh : g.held h.tid = some (h, version))
    (hm : .released h ∉ marks) : (g.enterAll marks).held h.tid = some (h, version) := by
  induction marks generalizing g with
  | nil => exact hh
  | cons m marks ih =>
    rw [List.mem_cons, not_or] at hm
    exact ih ha.2 (held_enter ha.1 hh (Ne.symm hm.1)) hm.2

end Ledger

/-- Whenever a node is stamped after a handle was acquired, the handle is given back before the node is
freed. -/
def Guarded (marks : List (Mark ι)) : Prop :=
  ∀ before during later after h version w,
    marks = before ++ .acquired h version :: during ++ .stamped w :: later ++ .freed w :: after →
      .released h ∈ during ++ later

namespace Ledger

/-- What a ledger admits is guarded. -/
theorem Admits.guarded {g : Ledger} {marks : List (Mark ι)} (ha : g.Admits marks) :
    Guarded marks := by
  rintro before during later after h version w rfl
  by_contra hrel
  rw [List.mem_append, not_or] at hrel
  obtain ⟨ha, hfreed, -⟩ := admits_append.1 ha
  obtain ⟨ha, hstamped, hlater⟩ := admits_append.1 ha
  obtain ⟨-, ⟨hversion, -⟩, hduring⟩ := admits_append.1 ha
  simp only [enterAll_append, enterAll_cons] at hfreed hstamped hlater
  generalize g.enterAll before = g₀ at hversion hduring hstamped hlater hfreed
  generalize hg₁ : g₀.enter (.acquired (ι := ι) h version) = g₁ at hduring hstamped hlater hfreed
  have hheld : g₁.held h.tid = some (h, version) := hg₁ ▸ Function.update_self ..
  have hversion₁ : g₁.version = version := hg₁ ▸ hversion.symm
  have hle := version_enterAll g₁ during
  have hheld := held_enterAll hduring hheld hrel.1
  have hfreed := hfreed.le_held _ _ _ (held_enterAll hlater hheld hrel.2)
  have hstamped : w.version = (g₁.enterAll during).version + 1 := hstamped
  omega

/-- No two nodes have the same stamp. -/
theorem Admits.stamps {g : Ledger} {marks : List (Mark ι)} (ha : g.Admits marks) :
    (∀ version ∈ marks.filterMap Mark.stamp?, g.version < version) ∧
      (marks.filterMap Mark.stamp?).Pairwise (· < ·) := by
  induction marks generalizing g with
  | nil => simp
  | cons m marks ih =>
    obtain ⟨hm, ha⟩ := ha
    obtain ⟨hlt, hpair⟩ := ih ha
    cases m with
    | stamped w =>
      have hw : w.version = g.version + 1 := hm
      have hnext : ∀ version ∈ marks.filterMap Mark.stamp?, g.version + 1 < version := hlt
      refine ⟨?_, ?_⟩
      · rintro version (⟨⟩ | ⟨_, hv⟩)
        · omega
        · exact Nat.lt_of_succ_lt (hnext version hv)
      · exact List.pairwise_cons.2 ⟨fun v hv => hw ▸ hnext v hv, hpair⟩
    | acquired h version => exact ⟨hlt, hpair⟩
    | released h => exact ⟨hlt, hpair⟩
    | freed w => exact ⟨hlt, hpair⟩

end Ledger

end BackoffStack
