/-
A lock excludes, and loses no update.

Many threads may see the flag clear at once, but only one sets it, and from then on until it drops its guard
the flag is set. So all accesses to the protected value belong to the critical section that was begun last, and
what comes of them is what comes of whole critical sections, one after another, in the order in which the lock
was won (`Contest.excludes_and_serializes`).
-/
import BackoffStack.Proofs.SpinLock.Contest

namespace BackoffStack.SpinLock

variable {κ α β : Type}

/-- A whole critical section, from what its thread has of its own and from the protected value. -/
def Tenure.apply (x : Tenure κ α) (memory : (Nat → κ) × α) : (Nat → κ) × α :=
  let after := x.touches.foldl (fun m a => a.apply m) (memory.1 x.thread, memory.2)
  (Function.update memory.1 x.thread after.1, after.2)

/-- Whole critical sections one after another, the first of which is listed last. -/
def serially (tenures : List (Tenure κ α)) (memory : (Nat → κ) × α) : (Nat → κ) × α :=
  tenures.foldr Tenure.apply memory

theorem Tenure.apply_nil (t : Nat) (memory : (Nat → κ) × α) :
    ({ thread := t } : Tenure κ α).apply memory = memory := by
  simp [apply]

/-- One more access goes on from where the critical section has got to. -/
theorem Tenure.apply_concat (t : Nat) (touches : List (Touch κ α)) (a : Touch κ α)
    (memory : (Nat → κ) × α) :
    let m := (⟨t, touches⟩ : Tenure κ α).apply memory
    (⟨t, touches ++ [a]⟩ : Tenure κ α).apply memory =
      (Function.update m.1 t (a.apply (m.1 t, m.2)).1, (a.apply (m.1 t, m.2)).2) := by
  simp [apply, List.foldl_append]

namespace Contest

/-- What the threads have of their own. -/
def owns (s : Contest κ α) (t : Nat) : κ := (s.users t).own

/-- How the list of critical sections goes on: whoever wins begins one, and whoever has the guard makes another
access in its own. -/
inductive Extends (s : Contest κ α) : List (Tenure κ α) → Prop
  | same : Extends s s.tenures
  | wins {t} (free : ∀ u, ¬ s.Holds u) : Extends s ({ thread := t } :: s.tenures)
  | touches {t touches a earlier} (holds : s.Holds t) (latest : s.tenures = ⟨t, touches⟩ :: earlier) :
      Extends s (⟨t, touches ++ [a]⟩ :: earlier)

/-- There is one guard at most, and the flag tells whether there is one. -/
structure Excludes (s : Contest κ α) : Prop where
  sole : ∀ t u, s.Holds t → s.Holds u → t = u
  flag : s.lock.locked = true ↔ ∃ t, s.Holds t
  /-- Nobody gives back a lock that is open. -/
  unbroken : ∀ t, (s.users t).point ≠ .broken
  /-- Whoever gets the guard, by locking or by trying, gets it while there is none. -/
  grants : ∀ e t, ¬ s.Holds t → (s.happen e).Holds t → ∀ u, ¬ s.Holds u

/-- What threads have done is what they would have done in whole critical sections, one after another. -/
structure Serializes (s : Contest κ α) (start : (Nat → κ) × α) : Prop where
  memory : (s.owns, s.lock.value) = serially s.tenures start
  /-- The critical section of whoever has the guard is the latest one. -/
  latest : ∀ t, s.Holds t → ∃ touches earlier, s.tenures = ⟨t, touches⟩ :: earlier
  /-- No other one goes on. -/
  goes_on : ∀ e, s.Extends (s.happen e).tenures

/-- A lock in order. -/
structure Inv (s : Contest κ α) (start : (Nat → κ) × α) : Prop where
  sole : ∀ t u, s.Holds t → s.Holds u → t = u
  flag : s.lock.locked = true ↔ ∃ t, s.Holds t
  unbroken : ∀ t, (s.users t).point ≠ .broken
  latest : ∀ t, s.Holds t → ∃ touches earlier, s.tenures = ⟨t, touches⟩ :: earlier
  memory : (s.owns, s.lock.value) = serially s.tenures start

variable {s s' : Contest κ α} {start : (Nat → κ) × α} {e : Event κ α} {t u : Nat} {v : User κ}

theorem holds_put : (s.put t v).Holds u ↔ if u = t then v.point = .hold else s.Holds u := by
  unfold Holds
  rw [users_put, Function.update_apply]
  split <;> rfl

theorem owns_put (s : Contest κ α) (t : Nat) (v : User κ) :
    (s.put t v).owns = Function.update s.owns t v.own := by
  funext u
  simp only [owns, users_put, Function.update_apply]
  split <;> rfl

theorem owns_put_of_own (h : v.own = (s.users t).own) : (s.put t v).owns = s.owns := by
  rw [owns_put, h]
  exact Function.update_eq_self ..

theorem unbroken_put (h : ∀ u, (s.users u).point ≠ .broken) (hv : v.point ≠ .broken) (u : Nat) :
    ((s.put t v).users u).point ≠ .broken := by
  rw [users_put, Function.update_apply]
  split
  · exact hv
  · exact h u

/-! ## What an event preserves -/

namespace Inv

variable (h : s.Inv start)
include h

theorem free (hl : s.lock.locked = false) (u : Nat) : ¬ s.Holds u := by
  intro hu
  simp [h.flag.2 ⟨u, hu⟩] at hl

theorem wait (hout : ¬ s.Holds t) (hown : v.own = (s.users t).own) (hv : v.point ≠ .broken)
    (hv' : v.point ≠ .hold) : (s.put t v).Inv start := by
  have hholds : ∀ u, (s.put t v).Holds u ↔ s.Holds u := by
    intro u
    rw [holds_put]
    split
    · next hu => simp [hu, hv', hout]
    · rfl
  refine ⟨fun u w hu hw => h.sole u w ((hholds u).1 hu) ((hholds w).1 hw),
    h.flag.trans (exists_congr fun u => (hholds u).symm), unbroken_put h.unbroken hv,
    fun u hu => h.latest u ((hholds u).1 hu), ?_⟩
  rw [owns_put_of_own hown]
  exact h.memory

theorem win (hl : s.lock.locked = false) : ({ s.put t { s.users t with point := .hold } with
    lock := { s.lock with locked := true }
    tenures := { thread := t } :: s.tenures } : Contest κ α).Inv start := by
  have hholds : ∀ u, (s.put t { s.users t with point := .hold }).Holds u ↔ u = t := by
    intro u
    rw [holds_put]
    split
    · next hu => simp [hu]
    · next hu => simp [hu, h.free hl u]
  have howns : (s.put t { s.users t with point := .hold }).owns = s.owns := owns_put_of_own rfl
  refine ⟨fun u w hu hw => ((hholds u).1 hu).trans ((hholds w).1 hw).symm,
    ⟨fun _ => ⟨t, (hholds t).2 rfl⟩, fun _ => rfl⟩, unbroken_put h.unbroken (by simp), fun u hu => ?_, ?_⟩
  · rw [(hholds u).1 hu]
    exact ⟨[], s.tenures, rfl⟩
  · calc ((s.put t { s.users t with point := .hold }).owns, s.lock.value)
        = serially s.tenures start := by rw [howns, h.memory]
      _ = serially ({ thread := t } :: s.tenures) start := (Tenure.apply_nil t _).symm

theorem leave (ht : s.Holds t) : ({ s.put t { s.users t with point := .released } with
    lock := { s.lock with locked := false } } : Contest κ α).Inv start := by
  have hnone : ∀ u, ¬ (s.put t { s.users t with point := .released }).Holds u := by
    intro u hu
    rw [holds_put] at hu
    split at hu
    · simp at hu
    · next hne => exact hne (h.sole u t hu ht)
  have howns : (s.put t { s.users t with point := .released }).owns = s.owns := owns_put_of_own rfl
  refine ⟨fun u _ hu => absurd hu (hnone u),
    ⟨by simp, fun hu => hu.elim fun u hu => absurd hu (hnone u)⟩,
    unbroken_put h.unbroken (by simp), fun u hu => absurd hu (hnone u), ?_⟩
  calc ((s.put t { s.users t with point := .released }).owns, s.lock.value)
      = (s.owns, s.lock.value) := by rw [howns]
    _ = serially s.tenures start := h.memory

theorem touch (ht : s.Holds t) (a : Touch κ α) :
    ({ s.put t { s.users t with own := (a.apply ((s.users t).own, s.lock.value)).1 } with
      lock := { s.lock with value := (a.apply ((s.users t).own, s.lock.value)).2 }
      tenures := record t a s.tenures } : Contest κ α).Inv start := by
  obtain ⟨touches, earlier, htenures⟩ := h.latest t ht
  generalize hafter : a.apply ((s.users t).own, s.lock.value) = after
  have hholds : ∀ u, (s.put t { s.users t with own := after.1 }).Holds u ↔ s.Holds u := by
    intro u
    rw [holds_put]
    split
    · next hu => rw [hu]; rfl
    · rfl
  have hrecord : record t a s.tenures = ⟨t, touches ++ [a]⟩ :: earlier := by
    rw [htenures, record_latest]
  refine ⟨fun u w hu hw => h.sole u w ((hholds u).1 hu) ((hholds w).1 hw),
    h.flag.trans (exists_congr fun u => (hholds u).symm),
    unbroken_put h.unbroken (h.unbroken t), fun u hu => ?_, ?_⟩
  · obtain rfl := h.sole u t ((hholds u).1 hu) ht
    exact ⟨touches ++ [a], earlier, hrecord⟩
  · have hmemory : (s.owns, s.lock.value) = (⟨t, touches⟩ : Tenure κ α).apply (serially earlier start) := by
      rw [h.memory, htenures]
      rfl
    have hnext := Tenure.apply_concat t touches a (serially earlier start)
    rw [← hmemory] at hnext
    calc ((s.put t { s.users t with own := after.1 }).owns, after.2)
        = (⟨t, touches ++ [a]⟩ : Tenure κ α).apply (serially earlier start) := by
          rw [owns_put, hnext, ← hafter]
          rfl
      _ = serially (record t a s.tenures) start := by rw [hrecord]; rfl

theorem goes (hg : s.Goes e s') : s'.Inv start := by
  cases hg with
  | stays => exact h
  | waits before unbroken after => exact h.wait before rfl unbroken after
  | wins before free => exact h.win free
  | leaves holds taken => exact h.leave holds
  | @breaks t holds free => exact absurd holds (h.free free t)
  | touches holds => exact h.touch holds _

theorem foldl (events : List (Event κ α)) : (events.foldl happen s).Inv start := by
  induction events generalizing s with
  | nil => exact h
  | cons e events ih => exact ih (h.goes (s.goes e))

/-! ## What follows -/

theorem grants (hg : s.Goes e s') (hout : ¬ s.Holds t) (ht : s'.Holds t) (u : Nat) : ¬ s.Holds u := by
  have hself : ∀ {w : Nat} {v : User κ}, ¬ v.point = .hold → ¬ (s.put w v).Holds t := by
    intro w v hv hheld
    rw [holds_put] at hheld
    split at hheld
    · exact hv hheld
    · exact hout hheld
  cases hg with
  | stays => exact absurd ht hout
  | waits before unbroken after => exact absurd ht (hself after)
  | wins before free => exact h.free free u
  | leaves holds taken => exact absurd ht (hself (by simp))
  | breaks holds free => exact absurd ht (hself (by simp))
  | @touches w a holds =>
    have hsame := (holds_put (s := s) (t := w)
      (v := { s.users w with own := (a.apply ((s.users w).own, s.lock.value)).1 })).1 ht
    split at hsame
    · next htw => exact absurd (htw ▸ hsame) hout
    · exact absurd hsame hout

theorem extends_goes (hg : s.Goes e s') : s.Extends s'.tenures := by
  cases hg with
  | stays | waits | leaves | breaks => exact .same
  | wins before free => exact .wins (h.free free)
  | @touches t a holds =>
    obtain ⟨touches, earlier, htenures⟩ := h.latest t holds
    have hrecord : record t a s.tenures = ⟨t, touches ++ [a]⟩ :: earlier := by
      rw [htenures, record_latest]
    exact hrecord ▸ .touches holds htenures

theorem excludes : s.Excludes :=
  ⟨h.sole, h.flag, h.unbroken, fun e _ => h.grants (s.goes e)⟩

theorem serializes : s.Serializes start :=
  ⟨h.memory, h.latest, fun e => h.extends_goes (s.goes e)⟩

end Inv

theorem Inv.new (value : α) (own : Nat → κ) : (Contest.new value own).Inv (own, value) where
  sole t _ ht := by cases ht
  flag := by
    constructor
    · intro hl
      cases hl
    · rintro ⟨t, ht⟩
      cases ht
  unbroken _ hp := by cases hp
  latest t ht := by cases ht
  memory := rfl

/-! ## Pushing onto a list -/

/-- A thread pushes onto the protected list: it reads the list, and then writes it with one element more. -/
def pushing (x : β) : List (Touch (List β) (List β)) :=
  [.read fun _ list => list, .write fun own _ => own ++ [x]]

theorem serially_pushing (pushes : List (Nat × β)) (memory : (Nat → List β) × List β) :
    (serially (pushes.map fun p => ⟨p.1, pushing p.2⟩) memory).2 =
      memory.2 ++ (pushes.map (·.2)).reverse := by
  induction pushes with
  | nil => simp [serially]
  | cons p pushes ih =>
    have hone : (serially ((p :: pushes).map fun p => ⟨p.1, pushing p.2⟩) memory).2 =
        (serially (pushes.map fun p => ⟨p.1, pushing p.2⟩) memory).2 ++ [p.2] := rfl
    rw [hone, ih]
    simp

/-- However any number of threads lock, or try to, and work on the protected value: one of them at most has a
guard, and what they do is done in whole critical sections, one after another, in the order in which the lock
was won. So if all that is done is to push onto a list, just what was pushed is there in the end. -/
theorem excludes_and_serializes :
    (∀ (value : α) (own : Nat → κ) (events : List (Event κ α)),
      (run value own events).Excludes ∧ (run value own events).Serializes (own, value)) ∧
    ∀ (list : List β) (own : Nat → List β) (events : List (Event (List β) (List β)))
      (pushes : List (Nat × β)),
      (run list own events).tenures = pushes.map (fun p => ⟨p.1, pushing p.2⟩) →
      (run list own events).lock.value = list ++ (pushes.map (·.2)).reverse := by
  refine ⟨fun value own events => ?_, fun list own events pushes hpushes => ?_⟩
  · have h := (Inv.new value own).foldl events
    exact ⟨h.excludes, h.serializes⟩
  · have hmemory := ((Inv.new list own).foldl events).memory
    unfold run at hpushes ⊢
    rw [hpushes] at hmemory
    rw [← serially_pushing pushes (own, list), ← hmemory]

/-- Two threads have both seen the flag clear; the second one sets it and pushes 9, then the first one pushes
7. -/
def race : List (Event (List Nat) (List Nat)) :=
  [.ask 0 false, .ask 1 true, .flag 0, .flag 1, .flag 1, .flag 0, .touch 1 (.read fun _ list => list), .flag 0,
    .touch 1 (.write fun own _ => own ++ [9]), .flag 1, .flag 0, .flag 0,
    .touch 0 (.read fun _ list => list), .touch 0 (.write fun own _ => own ++ [7]), .flag 0]

/-- Both elements are there. -/
theorem race_loses_nothing :
    let s := run [] (fun _ => []) race
    s.tenures = [(0, 7), (1, 9)].map (fun p => ⟨p.1, pushing p.2⟩) ∧
      s.Serializes (fun _ => [], []) ∧ s.lock.value = [9, 7] := by
  have hpushes : (run [] (fun _ => []) race).tenures =
      [(0, 7), (1, 9)].map (fun p => ⟨p.1, pushing p.2⟩) := rfl
  obtain ⟨hall, hpushed⟩ := excludes_and_serializes (κ := List Nat) (α := List Nat) (β := Nat)
  exact ⟨hpushes, (hall [] (fun _ => []) race).2, hpushed [] (fun _ => []) race _ hpushes⟩

end Contest

end BackoffStack.SpinLock
