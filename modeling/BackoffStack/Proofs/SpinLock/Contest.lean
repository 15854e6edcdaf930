/-
Any number of threads that use one lock, each one access at a time, in any order.

A thread locks, or only tries to: then it gives up where a contender would look at the flag again. While it has
the guard it reads the protected value into what it has of its own, and writes from there, in accesses of their
own, as many as it likes. The guard is dropped by one more access to the flag. All accesses to the flag are
those of a contender (`Contender.step`).
-/
import BackoffStack.SpinLock.Contender
import Mathlib.Logic.Function.Basic

namespace BackoffStack.SpinLock

variable {κ α : Type}

/-- One access to the protected value: a thread reads it into what it has of its own, or writes it from
there. -/
inductive Touch (κ α : Type) where
  | read (f : κ → α → κ)
  | write (f : κ → α → α)

/-- What becomes of a thread's own and of the protected value. -/
def Touch.apply : Touch κ α → κ × α → κ × α
  | read f, (own, value) => (f own value, value)
  | write f, (own, value) => (own, f own value)

/-- A critical section: what a thread does to the protected value from when it wins the lock until it gives it
back. -/
structure Tenure (κ α : Type) where
  thread : Nat
  touches : List (Touch κ α) := []

/-- A thread: where it stands with the lock, whether it only tries to take it, and what it has of its own. -/
structure User (κ : Type) where
  point : Contender.Point := .released
  tries : Bool := false
  own : κ

/-- Whoever only tries does not look again. -/
def User.goto (u : User κ) (p : Contender.Point) : User κ :=
  { u with point := if u.tries = true ∧ p = .look then .released else p }

/-- A lock, and the threads that use it. It is written down which critical sections there have been since the
lock was made, that of the last winner first. -/
structure Contest (κ α : Type) where
  lock : SpinLock α
  users : Nat → User κ
  tenures : List (Tenure κ α) := []

namespace Contest

/-- What happens next. -/
inductive Event (κ α : Type) where
  /-- A thread begins to lock, or to try. -/
  | ask (t : Nat) (tries : Bool)
  /-- A thread makes one access to the flag; by the one that follows winning it drops its guard. -/
  | flag (t : Nat)
  /-- A thread makes one access to the protected value. -/
  | touch (t : Nat) (a : Touch κ α)

/-- Whether a thread has a guard. -/
def Holds (s : Contest κ α) (t : Nat) : Prop := (s.users t).point = .hold

/-- Another state of a thread. -/
def put (s : Contest κ α) (t : Nat) (u : User κ) : Contest κ α :=
  { s with users := Function.update s.users t u }

/-- An access to the protected value belongs to the critical section that its thread has begun last. -/
def record (t : Nat) (a : Touch κ α) : List (Tenure κ α) → List (Tenure κ α)
  | [] => []
  | x :: earlier =>
    if x.thread = t then
      { x with touches := x.touches ++ [a] } :: earlier
    else
      x :: record t a earlier

theorem record_latest (t : Nat) (a : Touch κ α) (touches : List (Touch κ α)) (earlier : List (Tenure κ α)) :
    record t a (⟨t, touches⟩ :: earlier) = ⟨t, touches ++ [a]⟩ :: earlier := if_pos rfl

/-- One event. What a thread cannot do where it stands changes nothing. -/
def happen (s : Contest κ α) : Event κ α → Contest κ α
  | .ask t tries =>
    let u := s.users t
    if u.point = .released then s.put t { u with point := .look, tries } else s
  | .flag t =>
    let u := s.users t
    let (c, lock) := ({ work := [], point := u.point } : Contender α).step s.lock
    { s.put t (u.goto c.point) with
      lock
      tenures := if c.point = .hold then { thread := t } :: s.tenures else s.tenures }
  | .touch t a =>
    let u := s.users t
    if u.point = .hold then
      let (own, value) := a.apply (u.own, s.lock.value)
      { s.put t { u with own } with
        lock := { s.lock with value }
        tenures := record t a s.tenures }
    else
      s

/-- Nobody has asked for the lock yet. -/
def new (value : α) (own : Nat → κ) : Contest κ α where
  lock := { value }
  users t := { own := own t }

/-- What becomes of a new lock. -/
def run (value : α) (own : Nat → κ) (events : List (Event κ α)) : Contest κ α :=
  events.foldl happen (new value own)

@[simp] theorem users_put (s : Contest κ α) (t : Nat) (u : User κ) :
    (s.put t u).users = Function.update s.users t u := rfl

@[simp] theorem lock_put (s : Contest κ α) (t : Nat) (u : User κ) : (s.put t u).lock = s.lock := rfl

/-- What one event can do. -/
inductive Goes (s : Contest κ α) : Event κ α → Contest κ α → Prop
  | stays {e} : Goes s e s
  /-- A thread without a guard goes on, and has none yet. -/
  | waits {e t p tries} (before : ¬ s.Holds t) (unbroken : p ≠ .broken) (after : p ≠ .hold) :
      Goes s e (s.put t { s.users t with point := p, tries })
  | wins {t} (before : ¬ s.Holds t) (free : s.lock.locked = false) : Goes s (.flag t)
      { s.put t { s.users t with point := .hold } with
        lock := { s.lock with locked := true }
        tenures := { thread := t } :: s.tenures }
  | leaves {t} (holds : s.Holds t) (taken : s.lock.locked = true) : Goes s (.flag t)
      { s.put t { s.users t with point := .released } with lock := { s.lock with locked := false } }
  /-- The lock was found open by the one who has the guard. -/
  | breaks {t} (holds : s.Holds t) (free : s.lock.locked = false) :
      Goes s (.flag t) (s.put t { s.users t with point := .broken })
  | touches {t a} (holds : s.Holds t) : Goes s (.touch t a)
      { s.put t { s.users t with own := (a.apply ((s.users t).own, s.lock.value)).1 } with
        lock := { s.lock with value := (a.apply ((s.users t).own, s.lock.value)).2 }
        tenures := record t a s.tenures }

theorem put_self (s : Contest κ α) (t : Nat) : s.put t (s.users t) = s := by
  simp only [put, Function.update_eq_self]

theorem goes_flag (s : Contest κ α) (t : Nat) : s.Goes (.flag t) (s.happen (.flag t)) := by
  have hself : ∀ p, p ≠ .look → (s.users t).goto p = { s.users t with point := p } := by
    intro p hp
    simp [User.goto, hp]
  cases hp : (s.users t).point with
  | look =>
    have hout : ¬ s.Holds t := by simp [Holds, hp]
    cases hl : s.lock.locked with
    | true =>
      have hnext : s.happen (.flag t) = s.put t ((s.users t).goto .look) := by
        simp [happen, Contender.step, hp, hl, put]
      rw [hnext]
      exact .waits hout (by split <;> simp) (by split <;> simp)
    | false =>
      have hnext : s.happen (.flag t) = s.put t ((s.users t).goto .take) := by
        simp [happen, Contender.step, hp, hl, put]
      rw [hnext, hself _ (by simp)]
      exact .waits hout (by simp) (by simp)
  | take =>
    have hout : ¬ s.Holds t := by simp [Holds, hp]
    cases hl : s.lock.locked with
    | true =>
      have hnext : s.happen (.flag t) = s.put t ((s.users t).goto .look) := by
        simp [happen, Contender.step, exchangeFlag, hp, hl, put]
      rw [hnext]
      exact .waits hout (by split <;> simp) (by split <;> simp)
    | false =>
      have hnext : s.happen (.flag t) = { s.put t ((s.users t).goto .hold) with
          lock := { s.lock with locked := true }
          tenures := { thread := t } :: s.tenures } := by
        simp [happen, Contender.step, exchangeFlag, hp, hl, put]
      rw [hnext, hself _ (by simp)]
      exact .wins hout hl
  | hold =>
    cases hl : s.lock.locked with
    | true =>
      have hnext : s.happen (.flag t) = { s.put t ((s.users t).goto .released) with
          lock := { s.lock with locked := false } } := by
        simp [happen, Contender.step, unlock_eq, hp, hl, put]
      rw [hnext, hself _ (by simp)]
      exact .leaves hp hl
    | false =>
      have hnext : s.happen (.flag t) = s.put t ((s.users t).goto .broken) := by
        simp [happen, Contender.step, unlock_eq, hp, hl, put]
      rw [hnext, hself _ (by simp)]
      exact .breaks hp hl
  | released | broken =>
    have hnext : s.happen (.flag t) = s := by
      have hgoto : (s.users t).goto (s.users t).point = s.users t := hself _ (by simp [hp])
      rw [hp] at hgoto
      simp [happen, Contender.step, hp, hgoto, put_self]
    rw [hnext]
    exact .stays

theorem goes (s : Contest κ α) (e : Event κ α) : s.Goes e (s.happen e) := by
  cases e with
  | ask t tries =>
    simp only [happen]
    split
    · next hp => exact .waits (by simp [Holds, hp]) (by simp) (by simp)
    · exact .stays
  | flag t => exact s.goes_flag t
  | touch t a =>
    simp only [happen]
    split
    · next hp => exact .touches hp
    · exact .stays

/-! ## A thread alone -/

/-- A thread locks, or tries to, without another one in between. -/
def asks (t : Nat) (tries : Bool) : List (Event κ α) := [.ask t tries, .flag t, .flag t]

/-- While it has the guard, a thread makes some changes one after another. -/
def changes (t : Nat) (work : List (α → α)) : List (Event κ α) :=
  work.map fun f => .touch t (.write fun _ => f)

theorem foldl_changes (s : Contest κ α) {t : Nat} (ht : s.Holds t) (work : List (α → α)) :
    let s' := (changes t work).foldl happen s
    s'.Holds t ∧ s'.lock = { s.lock with value := work.foldl (fun v f => f v) s.lock.value } := by
  induction work generalizing s with
  | nil => exact ⟨ht, rfl⟩
  | cons f work ih =>
    have hp : (s.users t).point = .hold := ht
    have hlock : (s.happen (.touch t (.write fun _ => f))).lock =
        { s.lock with value := f s.lock.value } := by
      simp [happen, hp, Touch.apply]
    have hholds : (s.happen (.touch t (.write fun _ => f))).Holds t := by
      simp [happen, hp, Holds]
    have hrest := ih _ hholds
    rw [hlock] at hrest
    exact hrest

theorem run_hold (work : List (α → α)) (l : SpinLock α) (hl : l.locked = true) :
    (Contender.run (work.length + 1) { work, point := .hold } l).2 =
      { locked := false, value := work.foldl (fun v f => f v) l.value } := by
  induction work generalizing l with
  | nil => simp [Contender.run, Contender.step, unlock_eq, hl]
  | cons f work ih => exact ih { l with value := f l.value } hl

/-- A thread that locks, makes its changes and drops the guard leaves the lock as a contender does that has it
for itself. -/
theorem lock_alone (s : Contest κ α) {t : Nat} (hout : (s.users t).point = .released)
    (hfree : s.lock.locked = false) (work : List (α → α)) :
    ((asks t false ++ changes t work ++ [Event.flag t]).foldl happen s).lock =
      ({ work } : Contender α).alone s.lock := by
  have hwon : ((asks t false).foldl happen s).Holds t ∧
      ((asks t false).foldl happen s).lock = { s.lock with locked := true } := by
    simp [asks, happen, Contender.step, exchangeFlag, Holds, User.goto, hout, hfree]
  obtain ⟨hholds, hlock⟩ := foldl_changes ((asks t false).foldl happen s) hwon.1 work
  rw [hwon.2] at hlock
  have hcontender : ({ work } : Contender α).alone s.lock =
      (Contender.run (work.length + 1) { work, point := .hold } { s.lock with locked := true }).2 := by
    simp [Contender.alone, Contender.run, Contender.step, exchangeFlag, hfree]
  rw [List.foldl_append, List.foldl_append, hcontender, run_hold work _ rfl]
  generalize (changes t work).foldl happen ((asks t false).foldl happen s) = s' at hholds hlock
  have hp : (s'.users t).point = .hold := hholds
  simp [happen, Contender.step, unlock_eq, hp, hlock]

/-- A thread that tries has the guard just if the lock can be taken. -/
theorem tryLock_alone (s : Contest κ α) {t : Nat} (hout : (s.users t).point = .released) :
    let s' := (asks t true).foldl happen s
    s'.lock = s.lock.tryLock.getD s.lock ∧ (s'.Holds t ↔ s.lock.tryLock.isSome = true) := by
  cases hl : s.lock.locked with
  | true => simp [asks, happen, Contender.step, tryLock_eq, Holds, User.goto, hout, hl]
  | false => simp [asks, happen, Contender.step, exchangeFlag, tryLock_eq, Holds, User.goto, hout, hl]

end Contest

end BackoffStack.SpinLock
