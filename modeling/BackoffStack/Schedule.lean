/-
Running calls that wait for each other, one at a time. A call is resumed until it is over or can only
wait; the calls in flight are resumed in order, again and again, until all of them can only wait.
-/

namespace BackoffStack

/-- Calls in flight by the name of their thread, in ascending order, one for each thread. -/
structure Flights (γ : Type) where
  entries : List (Nat × γ) := []

namespace Flights

variable {γ : Type}

/-- The call of a thread. -/
def find? (f : Flights γ) (t : Nat) : Option γ := f.entries.lookup t

/-- The threads with a call in flight. -/
def threads (f : Flights γ) : List Nat := f.entries.map (·.1)

/-- Adds the call of a thread to an ascending list, in the place of any other call of it. -/
def insertInto (t : Nat) (c : γ) : List (Nat × γ) → List (Nat × γ)
  | [] => [(t, c)]
  | (u, d) :: rest =>
    if t < u then (t, c) :: (u, d) :: rest
    else if t = u then (t, c) :: rest
    else (u, d) :: insertInto t c rest

/-- The calls with that of one thread added or changed. -/
def insert (f : Flights γ) (t : Nat) (c : γ) : Flights γ :=
  { entries := insertInto t c f.entries }

/-- The calls without that of one thread. -/
def erase (f : Flights γ) (t : Nat) : Flights γ :=
  { entries := f.entries.filter (·.1 ≠ t) }

theorem lookup_insertInto (t u : Nat) (c : γ) (es : List (Nat × γ)) :
    (insertInto t c es).lookup u = if u = t then some c else es.lookup u := by
  induction es with
  | nil => grind [insertInto]
  | cons e rest ih => grind [insertInto]

theorem lookup_filter_ne (t u : Nat) (es : List (Nat × γ)) :
    (es.filter (·.1 ≠ t)).lookup u = if u = t then none else es.lookup u := by
  induction es with
  | nil => simp
  | cons e rest ih => grind

/-- Adding the call of a thread touches no other call. -/
theorem find?_insert (f : Flights γ) (t u : Nat) (c : γ) :
    (f.insert t c).find? u = if u = t then some c else f.find? u :=
  lookup_insertInto t u c f.entries

/-- Taking the call of a thread away touches no other call. -/
theorem find?_erase (f : Flights γ) (t u : Nat) :
    (f.erase t).find? u = if u = t then none else f.find? u :=
  lookup_filter_ne t u f.entries

/-- A thread with a call in flight is among those that are listed. -/
theorem mem_threads {f : Flights γ} {t : Nat} {c : γ} (h : f.find? t = some c) : t ∈ f.threads := by
  unfold find? at h
  unfold threads
  generalize f.entries = es at h
  induction es with
  | nil => simp at h
  | cons e es ih =>
    obtain ⟨u, d⟩ := e
    by_cases hu : t = u
    · simp [hu]
    · simp only [List.lookup_cons, beq_eq_false_iff_ne.2 hu] at h
      exact List.mem_cons_of_mem _ (ih h)

end Flights

namespace Schedule

variable {σ : Type}

/-- Steps of one call until it rests, at most `fuel` of them. -/
def resume (rests : σ → Bool) (step : σ → σ) : Nat → σ → σ
  | 0, s => s
  | fuel + 1, s => if rests s then s else resume rests step fuel (step s)

/-- Resumes the calls in flight until all of them rest, in at most `fuel` passes over them. -/
def settle (flying : σ → List Nat) (rests : Nat → σ → Bool) (run : Nat → σ → σ) :
    Nat → σ → σ
  | 0, s => s
  | fuel + 1, s =>
    if (flying s).all (rests · s) then
      s
    else
      settle flying rests run fuel ((flying s).foldl (fun s t => run t s) s)

end Schedule

end BackoffStack
