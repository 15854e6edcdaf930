/-
What a table of ranges answers.

A slot keeps one bare range, and the generation that has saved it. It starts out with a range of zero, and
what is found there is put between the bounds of the template as it is. So a token is answered by the last
store for its id and by nothing else (`remembered`). That no answer is out of bounds rests on the whole run:
each policy that was stored goes back to an answer of the table (`Sourced`).
-/
import BackoffStack.Proofs.Range.Walk

namespace BackoffStack

namespace RangePolicy

variable {p template : RangePolicy}

/-- The policy has the bounds of the template, and its range lies between them. -/
structure Within (p template : RangePolicy) : Prop where
  inBounds : p.InBounds
  low : p.low = template.low
  high : p.high = template.high

theorem bounds_record (p : RangePolicy) (o : Outcome) :
    (p.record o).low = p.low ∧ (p.record o).high = p.high := by
  cases o with
  | success => simp only [record, recordSuccess]; split <;> exact ⟨rfl, rfl⟩
  | timeout => simp only [record, recordTimeout]; split <;> exact ⟨rfl, rfl⟩

theorem Within.record (h : p.Within template) (o : Outcome) : (p.record o).Within template where
  inBounds := record_inBounds h.inBounds o
  low := (bounds_record p o).1.trans h.low
  high := (bounds_record p o).2.trans h.high

theorem Within.walk (h : p.Within template) (outcomes : List Outcome) :
    (p.walk outcomes).Within template := by
  induction outcomes generalizing p with
  | nil => exact h
  | cons o outcomes ih => exact ih (h.record o)

/-- The range alone tells what a policy with these bounds was. -/
theorem Within.eq (h : p.Within template) : { template with range := p.range } = p := by
  rw [← h.low, ← h.high]

end RangePolicy

namespace RangeTable

/-- What is asked of a table. -/
inductive Call where
  | load (token : ThreadToken)
  | store (token : ThreadToken) (policy : RangePolicy)

/-- The token that a call is made under. -/
def Call.token : Call → ThreadToken
  | load token => token
  | store token _ => token

/-- What a call saves for an id. -/
def Call.saved? (id : Nat) : Call → Option (ThreadToken × RangePolicy)
  | load _ => none
  | store token policy => if token.id = id then some (token, policy) else none

/-- The table after a call, for which a slot was looked up. -/
def perform (t : RangeTable) : Call → RangeTable
  | .load token => t.reach token.id
  | .store token policy => t.store token policy

/-- What a load answers. -/
def answer? (t : RangeTable) : Call → Option RangePolicy
  | .load token => some ((t.reach token.id).load token)
  | .store .. => none

/-- The table after a run. -/
def after (t : RangeTable) (calls : List Call) : RangeTable := calls.foldl perform t

/-- What the loads of a run answer, the first first. -/
def answers (t : RangeTable) : List Call → List RangePolicy
  | [] => []
  | c :: calls => (t.answer? c).toList ++ (t.perform c).answers calls

/-- Each policy that is stored in a run is one that a load has answered before, and that exchanges have been
recorded in since. -/
inductive Sourced (t : RangeTable) : List Call → Prop
  | nil : Sourced t []
  | load {calls} (h : Sourced t calls) (token) : Sourced t (calls ++ [.load token])
  | store {calls} (h : Sourced t calls) (token) {policy} (source : policy ∈ t.answers calls)
      (outcomes) : Sourced t (calls ++ [.store token (policy.walk outcomes)])

/-- The store for an id that came last, under which token and of what. -/
def lastStore? (id : Nat) (calls : List Call) : Option (ThreadToken × RangePolicy) :=
  calls.reverse.findSome? (·.saved? id)

/-- What a token has left in the table: the range of the last store for its id, if that was made under the
same generation. -/
def remembered (template : RangePolicy) (calls : List Call) (token : ThreadToken) : RangePolicy :=
  match lastStore? token.id calls with
  | some (saver, policy) =>
    if saver.generation = token.generation then { template with range := policy.range } else template
  | none => template

variable {t : RangeTable} {calls : List Call} {c : Call} {token : ThreadToken} {template : RangePolicy}

/-! ## One call -/

theorem after_concat (t : RangeTable) (calls : List Call) (c : Call) :
    t.after (calls ++ [c]) = (t.after calls).perform c := by
  simp [after]

theorem answers_concat (t : RangeTable) (calls : List Call) (c : Call) :
    t.answers (calls ++ [c]) = t.answers calls ++ ((t.after calls).answer? c).toList := by
  induction calls generalizing t with
  | nil => simp [answers, after]
  | cons d calls ih => simp [answers, after, ih]

theorem lastStore?_concat (id : Nat) (calls : List Call) (c : Call) :
    lastStore? id (calls ++ [c]) = (c.saved? id).or (lastStore? id calls) := by
  cases h : c.saved? id <;> simp [lastStore?, h]

theorem template_perform (t : RangeTable) (c : Call) : (t.perform c).template = t.template := by
  cases c <;> rfl

theorem get_perform (t : RangeTable) (c : Call) (id : Nat) : (t.perform c).slots.get id =
    (c.saved? id).elim (t.slots.get id) fun s => ⟨s.1.generation, s.2.range⟩ := by
  cases c with
  | load token => simp [perform, reach, Call.saved?]
  | store token policy =>
    rw [perform, get_store, Call.saved?]
    by_cases hid : token.id = id
    · simp [hid]
    · simp [hid, Ne.symm hid]

/-- A call that saves nothing for an id changes nothing for the tokens of that id. -/
theorem load_perform (h : c.saved? token.id = none) : (t.perform c).load token = t.load token :=
  load_congr (template_perform t c) (by rw [get_perform, h]; rfl)

theorem load_extend (t : RangeTable) (n : Nat) (token : ThreadToken) :
    ({ t with slots := t.slots.extend n } : RangeTable).load token = t.load token :=
  load_congr rfl (SegmentTable.get_extend ..)

/-! ## Runs -/

theorem template_after (t : RangeTable) (calls : List Call) : (t.after calls).template = t.template := by
  induction calls using List.reverseRecOn with
  | nil => rfl
  | append_singleton calls c ih => rw [after_concat, template_perform, ih]

theorem get_after (template : RangePolicy) (calls : List Call) (id : Nat) :
    (after { template } calls).slots.get id =
      (lastStore? id calls).elim {} fun s => ⟨s.1.generation, s.2.range⟩ := by
  induction calls using List.reverseRecOn with
  | nil => exact SegmentTable.get_new id
  | append_singleton calls c ih =>
    rw [after_concat, get_perform, lastStore?_concat]
    cases c.saved? id with
    | some s => rfl
    | none => exact ih

/-- No token has the generation of a slot that nobody has used. -/
theorem load_after (template : RangePolicy) (calls : List Call) (h : 1 ≤ token.generation) :
    (after { template } calls).load token = remembered template calls token := by
  unfold load remembered
  rw [get_after, template_after]
  cases lastStore? token.id calls with
  | some s => rfl
  | none => exact if_neg (Nat.ne_of_lt h)

theorem answer?_load (template : RangePolicy) (calls : List Call) (h : 1 ≤ token.generation) :
    (after { template } calls).answer? (.load token) = some (remembered template calls token) := by
  rw [answer?, load_reach, load_after template calls h]

/-- What is remembered is within the bounds if all that was stored is. -/
theorem remembered_within (ht : template.InBounds)
    (h : ∀ s, lastStore? token.id calls = some s → s.2.Within template) :
    (remembered template calls token).Within template := by
  have hself : template.Within template := ⟨ht, rfl, rfl⟩
  unfold remembered
  cases hs : lastStore? token.id calls with
  | none => exact hself
  | some s =>
    dsimp only
    split
    · rw [(h s hs).eq]
      exact h s hs
    · exact hself

/-- The bounds are kept in a circle: what is answered is within them since what was stored is, and the other way
round. -/
theorem Sourced.within (hs : Sourced { template } calls) (ht : template.InBounds)
    (hg : ∀ c ∈ calls, 1 ≤ c.token.generation) :
    (∀ p ∈ answers { template } calls, p.Within template) ∧
      ∀ id s, lastStore? id calls = some s → s.2.Within template := by
  induction hs with
  | nil => exact ⟨fun p hp => (List.not_mem_nil hp).elim, fun id s h => by cases h⟩
  | @load calls _ token ih =>
    obtain ⟨hanswers, hstores⟩ := ih fun c hc => hg c (List.mem_append_left _ hc)
    refine ⟨fun p hp => ?_, fun id s h => ?_⟩
    · have htoken : 1 ≤ token.generation := hg (.load token) (by simp)
      have hanswer := answer?_load template calls htoken
      rw [answers_concat, hanswer] at hp
      rcases List.mem_append.1 hp with hp | hp
      · exact hanswers p hp
      · rw [List.mem_singleton.1 hp]
        exact remembered_within ht (hstores token.id)
    · rw [lastStore?_concat] at h
      exact hstores id s h
  | @store calls _ token policy source outcomes ih =>
    obtain ⟨hanswers, hstores⟩ := ih fun c hc => hg c (List.mem_append_left _ hc)
    refine ⟨fun p hp => ?_, fun id s h => ?_⟩
    · rw [answers_concat] at hp
      exact hanswers p (by simpa [answer?] using hp)
    · rw [lastStore?_concat, Call.saved?] at h
      split at h
      · cases h
        exact (hanswers policy source).walk outcomes
      · exact hstores id s h

/-- Whatever policy is the template: a token is answered by the store for its id that came last, and starts
from the template if that was not made under its own generation. If all that is stored has come out of the
table, and has only had exchanges recorded in it, no load answers a range out of bounds. -/
theorem recalls_last_store (initial low high : Nat) (recorded : List RangePolicy.Outcome)
    (calls : List Call) (token : ThreadToken) (hcalls : ∀ c ∈ calls, 1 ≤ c.token.generation)
    (htoken : 1 ≤ token.generation) :
    let t : RangeTable := { template := (RangePolicy.create initial low high).walk recorded }
    (t.after calls).template = t.template ∧
    (t.after calls).answer? (.load token) = some (remembered t.template calls token) ∧
    (∀ c : Call, c.saved? token.id = none →
      ((t.after calls).perform c).load token = (t.after calls).load token) ∧
    (∀ n, ({ t.after calls with slots := (t.after calls).slots.extend n } : RangeTable).load token =
      (t.after calls).load token) ∧
    (t.Sourced calls → ∀ p ∈ t.answers (calls ++ [.load token]), p.Within t.template) := by
  refine ⟨template_after _ calls, answer?_load _ calls htoken, fun c => load_perform,
    fun n => load_extend _ n token, fun hs => ?_⟩
  have hall : ∀ c ∈ calls ++ [.load token], 1 ≤ c.token.generation := by
    intro c hc
    rcases List.mem_append.1 hc with hc | hc
    · exact hcalls c hc
    · rw [List.mem_singleton.1 hc]
      exact htoken
  have htemplate := RangePolicy.walk_inBounds (RangePolicy.create_inBounds initial low high) recorded
  exact ((hs.load token).within htemplate hall).1

/-- A thread has widened its range, and the id is used again. -/
def reuse : List Call :=
  [.load ⟨5, 10⟩, .store ⟨5, 10⟩ ⟨3, 1, 16⟩, .load ⟨5, 10⟩, .load ⟨5, 11⟩, .store ⟨5, 11⟩ ⟨2, 1, 16⟩]

/-- The second thread starts from the template; after it has stored, so does the first one. -/
theorem reuse_starts_over :
    let t : RangeTable := { template := .create 1 1 16 }
    (∀ c ∈ reuse, 1 ≤ c.token.generation) ∧ t.Sourced reuse ∧
    (t.after reuse).answer? (.load ⟨5, 10⟩) = some ⟨1, 1, 16⟩ ∧
    t.answers (reuse ++ [.load ⟨5, 10⟩]) = [⟨1, 1, 16⟩, ⟨3, 1, 16⟩, ⟨1, 1, 16⟩, ⟨1, 1, 16⟩] ∧
    ∀ p ∈ t.answers (reuse ++ [.load ⟨5, 10⟩]), p.Within t.template := by
  have hcalls : ∀ c ∈ reuse, 1 ≤ c.token.generation := by decide
  have hfirst : ⟨1, 1, 16⟩ ∈ answers { template := .create 1 1 16 } (reuse.take 1) := by decide
  have hsecond : ⟨1, 1, 16⟩ ∈ answers { template := .create 1 1 16 } (reuse.take 4) := by decide
  have hwide : Sourced { template := .create 1 1 16 } (reuse.take 2) :=
    (Sourced.nil.load ⟨5, 10⟩).store ⟨5, 10⟩ hfirst [.success, .success]
  have hsourced : Sourced { template := .create 1 1 16 } reuse :=
    ((hwide.load ⟨5, 10⟩).load ⟨5, 11⟩).store ⟨5, 11⟩ hsecond [.success]
  obtain ⟨-, hanswer, -, -, hwithin⟩ := recalls_last_store 1 1 16 [] reuse ⟨5, 10⟩ hcalls
    (by decide)
  exact ⟨hcalls, hsourced, hanswer, by decide, hwithin hsourced⟩

end RangeTable

end BackoffStack
