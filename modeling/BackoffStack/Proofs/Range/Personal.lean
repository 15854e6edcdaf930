/-
The range of a thread is its own.

Between the calls of a thread that holds a token, the table has the range that its account says; while a
call is under way, the call has it. A token that was handed out anew finds nothing under its id that was
saved under it, since no generation is handed out twice. So each visit goes by the account of its
thread and by nothing else (`World.range_is_personal`).
-/
import BackoffStack.Proofs.Range.Turns

namespace BackoffStack

variable {α : Type}

namespace World

variable {c : Config} {w w' : World α} {t u : Nat} {a : Account} {accounts : Nat → Account}
  {call : Call α} {call? : Option (Call α)} {outcomes : List RangePolicy.Outcome}

/-- If thread `t` holds a token, the table has the range for it that comes of these exchanges. -/
def Keeps (w : World α) (c : Config) (t : Nat) (outcomes : List RangePolicy.Outcome) : Prop :=
  ∀ k, w.threads.token? t = some k → w.stack.ranges.load k = c.policyAfter outcomes

/-- Where the range of thread `t` is kept, and that it goes by the thread's account. -/
inductive Follows (c : Config) (w : World α) (t : Nat) (a : Account) : Option (Call α) → Prop
  | idle : w.Keeps c t a.since → Follows c w t a none
  | explicit {call : Call α} : a.own = false → call.token? = none → call.point.enters = false →
      w.Keeps c t a.since → Follows c w t a (some call)
  | enters {call : Call α} : a.own = true → call.token? = none → call.point.enters = true →
      a.lately = [] → w.Keeps c t a.since → Follows c w t a (some call)
  | holds {call : Call α} {k : ThreadToken} : a.own = true → call.token? = some k →
      call.point.enters = false → w.threads.token? t = some k →
      call.policy = c.policyAfter a.since → Follows c w t a (some call)
  | gone {call : Call α} : a.own = true → call.token? = none → call.point.enters = false →
      w.threads.Gone t → call.policy = c.policyAfter a.lately → Follows c w t a (some call)

/-- A world of a stack with this configuration, and the account of each thread. -/
structure Accounted (c : Config) (w : World α) (accounts : Nat → Account) : Prop where
  ordered : c.Ordered
  capacity : w.stack.slots.length = c.capacity
  template : w.stack.ranges.template = c.policyAfter []
  booked : ∃ past most, w.threads.Booked past most
  saved : ∀ id, (w.stack.ranges.slots.get id).generation < w.threads.pool.nextGeneration
  follows : ∀ t, Follows c w t (accounts t) (w.flights.find? t)

/-! ## One account -/

theorem Account.next_none (a : Account) : a.next true none = a := by
  simp [Account.next]

theorem Account.turn_of_begins? {x : Turn α} (h : x.begins? t w = none) : a.turn t w x =
    a.next ((w.turn x).threads.token? t = w.threads.token? t) (x.ends? t w) := by
  unfold Account.turn
  rw [h]

/-- The account of a thread says nothing of what others do. -/
theorem Account.turn_of_ne {x : Turn α} (hx : x.thread? ≠ some t)
    (htoken : (w.turn x).threads.token? t = w.threads.token? t) : a.turn t w x = a := by
  have hends : x.ends? t w = none ∧ x.begins? t w = none := by
    unfold Turn.thread? at hx
    unfold Turn.ends? Turn.begins?
    constructor
    all_goals
      split
      · simp_all
      · simp_all
      · rfl
  simp only [Account.turn_of_begins? hends.2, hends.1, htoken, decide_true, next_none]

/-! ## Other threads -/

theorem Aside.token? (h : w.Aside t w') (hu : u ≠ t) : w'.threads.token? u = w.threads.token? u := by
  rcases h.threads with heq | ⟨m, hm, heq⟩
  · rw [heq]
  · rw [heq, Threads.token?_move_of_ne _ (by rw [hm]; exact hu.symm)]

theorem Aside.gone (h : w.Aside t w') (hu : u ≠ t) (hg : w.threads.Gone u) : w'.threads.Gone u := by
  rcases h.threads with heq | ⟨m, hm, heq⟩
  · rwa [heq]
  · rw [heq]
    refine hg.move m ?_
    rintro rfl
    exact hu hm

/-- What one thread saves lies under its own id, which no other holds. -/
theorem Aside.load (h : w.Aside t w') (ha : Accounted c w accounts) (hu : u ≠ t) {k : ThreadToken}
    (hk : w.threads.token? u = some k) : w'.stack.ranges.load k = w.stack.ranges.load k := by
  obtain ⟨past, most, hb⟩ := ha.booked
  refine RangeTable.load_congr h.template ((h.saved k.id).resolve_right ?_)
  rintro ⟨token, htoken, hid, -⟩
  exact hb.id_ne hk htoken hu hid

theorem Aside.follows (h : w.Aside t w') (ha : Accounted c w accounts) (hu : u ≠ t)
    (hf : Follows c w u a call?) : Follows c w' u a call? := by
  have hkeeps : ∀ {outcomes}, w.Keeps c u outcomes → w'.Keeps c u outcomes := by
    intro outcomes hk k hheld
    rw [h.token? hu] at hheld
    rw [h.load ha hu hheld]
    exact hk k hheld
  cases hf with
  | idle hk => exact .idle (hkeeps hk)
  | explicit hown htoken hp hk => exact .explicit hown htoken hp (hkeeps hk)
  | enters hown htoken hp hl hk => exact .enters hown htoken hp hl (hkeeps hk)
  | holds hown htoken hp hheld hpolicy =>
    exact .holds hown htoken hp ((h.token? hu).trans hheld) hpolicy
  | gone hown htoken hp hg hpolicy => exact .gone hown htoken hp (h.gone hu hg) hpolicy

/-- After a turn of one thread the books go on, if that thread's range goes by its account. -/
theorem Accounted.of_aside (ha : Accounted c w accounts) {x : Turn α}
    (hx : ∀ u, u ≠ t → x.thread? ≠ some u) (h : w.Aside t (w.turn x))
    (hself : Follows c (w.turn x) t ((accounts t).turn t w x) ((w.turn x).flights.find? t)) :
    Accounted c (w.turn x) fun u => (accounts u).turn u w x := by
  obtain ⟨past, most, hb⟩ := ha.booked
  refine ⟨ha.ordered, h.capacity.trans ha.capacity, h.template.trans ha.template, ?_, fun id => ?_,
    fun u => ?_⟩
  · rcases h.threads with heq | ⟨m, -, heq⟩
    · rw [heq]
      exact ⟨past, most, hb⟩
    · rw [heq]
      exact ⟨_, _, hb.move m⟩
  · have hgeneration : w.threads.pool.nextGeneration ≤ (w.turn x).threads.pool.nextGeneration := by
      rcases h.threads with heq | ⟨m, -, heq⟩
      · rw [heq]
      · rw [heq]
        exact Threads.nextGeneration_le_move ..
    refine lt_of_lt_of_le ?_ hgeneration
    rcases h.saved id with hsame | ⟨k, hk, -, hg⟩
    · rw [hsame]
      exact ha.saved id
    · rw [hg]
      exact (hb.generation_bounds hk).2
  · by_cases hu : u = t
    · exact hu ▸ hself
    · rw [h.flights u hu, Account.turn_of_ne (hx u hu) (h.token? hu)]
      exact h.follows ha hu (ha.follows u)

/-! ## The thread itself -/

namespace Quiet

theorem threads_cases (h : w.Quiet t w') : w'.threads = w.threads ∨
    w.threads.token? t = none ∧ t ∉ w.threads.dismissed ∧ w'.threads = w.threads.grant t := by
  rcases h.threads with heq | hask
  · exact .inl heq
  · rcases w.threads.ask_cases t with ⟨hs, -⟩ | ⟨hn, hd, hs, -⟩
    · exact .inl (hask.trans hs)
    · exact .inr ⟨hn, hd, hask.trans hs⟩

theorem threads_of_held (h : w.Quiet t w') {k : ThreadToken} (hk : w.threads.token? t = some k) :
    w'.threads = w.threads :=
  h.threads_cases.resolve_right fun hnew => by simp [hk] at hnew

theorem threads_of_gone (h : w.Quiet t w') (hg : w.threads.Gone t) : w'.threads = w.threads :=
  h.threads_cases.resolve_right fun hnew => hnew.2.1 hg.2

/-- A thread that gets its token starts from the template: nothing was saved under a generation as late
as that one. -/
theorem keeps (h : w.Quiet t w') (ha : Accounted c w accounts) (hk : w.Keeps c t a.since) :
    w'.Keeps c t (a.next (w'.threads.token? t = w.threads.token? t) none).since := by
  intro k hheld
  have hload := RangeTable.load_congr h.template (h.saved k.id)
  rw [hload]
  rcases h.threads_cases with heq | ⟨hn, -, heq⟩
  · rw [heq] at hheld
    simp only [heq, decide_true, Account.next_none]
    exact hk k hheld
  · have htoken : w'.threads.token? t = some w.threads.pool.allocate.1 := by
      rw [heq, Threads.token?_grant, if_pos rfl]
    obtain rfl := Option.some.inj (htoken.symm.trans hheld)
    have hnew : (a.next (w'.threads.token? t = w.threads.token? t) none).since = [] := by
      simp [htoken, hn, Account.next]
    rw [hnew, ← ha.template]
    refine RangeTable.load_of_older ?_
    rw [(Threads.generation_allocate w.threads.pool).1]
    exact ha.saved _

theorem follows_call {w₁ : World α} (h : w.Quiet t w₁) (ha : Accounted c w accounts)
    (hf : Follows c w t a (some call)) (hp : call.point.enters = false)
    {o? : Option RangePolicy.Outcome} {call' : Call α} (htoken : call'.token? = call.token?)
    (hp' : call'.point.enters = false)
    (hpolicy : call'.policy = o?.elim call.policy call.policy.record) :
    Follows c w₁ t (a.next (w₁.threads.token? t = w.threads.token? t) o?) (some call') := by
  have hrecord : ∀ {outcomes}, call.policy = c.policyAfter outcomes →
      call'.policy = c.policyAfter (outcomes ++ o?.toList) := by
    intro outcomes hold
    rw [hpolicy, hold]
    cases o? with
    | none => simp
    | some o => exact ha.ordered.record_policyAfter outcomes o
  cases hf with
  | explicit hown hnone _ hk =>
    have hsame : a.next (w₁.threads.token? t = w.threads.token? t) o? =
        a.next (w₁.threads.token? t = w.threads.token? t) none := by
      simp [Account.next, hown]
    rw [hsame]
    exact .explicit hown (htoken.trans hnone) hp' (h.keeps ha hk)
  | enters _ _ hp₁ _ _ => simp [hp] at hp₁
  | holds hown hk _ hheld hold =>
    have heq := h.threads_of_held hheld
    refine .holds hown (htoken.trans hk) hp' (heq ▸ hheld) ?_
    simp only [Account.next, hown, heq, decide_true, if_true]
    exact hrecord hold
  | gone hown hnone _ hg hold =>
    have heq := h.threads_of_gone hg
    refine .gone hown (htoken.trans hnone) hp' (heq ▸ hg) ?_
    simp only [Account.next, hown, if_true]
    exact hrecord hold

theorem follows (h : w.Quiet t w') (ha : Accounted c w accounts) (hf : Follows c w t a call?) :
    Follows c w' t (a.next (w'.threads.token? t = w.threads.token? t) none) call? := by
  cases hf with
  | idle hk => exact .idle (h.keeps ha hk)
  | enters hown hnone hp hl hk =>
    exact .enters hown hnone hp (by simp [Account.next, hl]) (h.keeps ha hk)
  | explicit hown hnone hp hk =>
    exact h.follows_call ha (.explicit hown hnone hp hk) hp rfl hp rfl
  | holds hown hk hp hheld hold =>
    exact h.follows_call ha (.holds hown hk hp hheld hold) hp rfl hp rfl
  | gone hown hnone hp hg hold =>
    exact h.follows_call ha (.gone hown hnone hp hg hold) hp rfl hp rfl

end Quiet

/-- What has become of the call of thread `t`, when an exchange of it has ended or none has. -/
structure Steps (c : Config) (w : World α) (t : Nat) (a : Account)
    (o? : Option RangePolicy.Outcome) (w' : World α) : Prop where
  aside : w.Aside t w'
  follows : Follows c w' t (a.next (w'.threads.token? t = w.threads.token? t) o?)
    (w'.flights.find? t)

theorem Within.steps (h : w.Within t call w') (ha : Accounted c w accounts)
    (hf : Follows c w t a (some call)) (hp : call.point.enters = false) :
    Steps c w t a (w.ends? t) w' := by
  cases h with
  | @goOn w₁ c' hq htoken hp' hpolicy =>
    have hq' := hq.continueAs c'
    refine ⟨hq'.aside, ?_⟩
    rw [find?_self]
    exact hq'.follows_call ha hf hp htoken hp' hpolicy

/-- A call that looks its range up finds the one of its thread's account. -/
theorem steps_enter (ha : Accounted c w accounts) (hf : Follows c w t a (some call))
    {offer : Option α} (hp : call.point = .enter offer) :
    Steps c w t a none (w.enter t call offer) := by
  have henters : call.point.enters = true := by rw [hp]; rfl
  cases hf with
  | enters hown hnone _ hl hk =>
    unfold enter
    rcases w.ownPolicy_cases t with ⟨hg, heq⟩ | ⟨k, w₁, hq, hheld, heq⟩
    · rw [heq]
      refine ⟨((Quiet.refl w t).continueAs _).aside, ?_⟩
      rw [find?_self]
      refine .gone hown rfl rfl hg ?_
      simp only [Account.next, hl]
      simpa using ha.template
    · rw [heq]
      refine ⟨(hq.continueAs _).aside, ?_⟩
      rw [find?_self]
      exact .holds hown rfl rfl hheld (hq.keeps ha hk k hheld)
  | explicit _ _ hp₁ _ => simp [henters] at hp₁
  | holds _ _ hp₁ _ _ => simp [henters] at hp₁
  | gone _ _ hp₁ _ _ => simp [henters] at hp₁

/-- A call that is over has saved the range of its account, under the token that its thread holds. -/
theorem steps_leave (ha : Accounted c w accounts) (hf : Follows c w t a (some call))
    {outcome : Outcome α} (hp : call.point = .leave outcome) :
    Steps c w t a none (w.leave t call outcome) := by
  have henters : call.point.enters = false := by rw [hp]; rfl
  have hfind : ∀ u, (w.leave t call outcome).flights.find? u =
      if u = t then none else w.flights.find? u := fun u => Flights.find?_erase ..
  have hothers : ∀ u, u ≠ t → (w.leave t call outcome).flights.find? u = w.flights.find? u :=
    fun u hu => (hfind u).trans (if_neg hu)
  have hthreads : (w.leave t call outcome).threads = w.threads := rfl
  cases hk : call.token? with
  | none =>
    have hranges : (w.leave t call outcome).stack.ranges = w.stack.ranges := by
      simp only [leave, hk]
    refine ⟨⟨rfl, by rw [hranges], .inl rfl, hothers, fun id => .inl (by rw [hranges])⟩, ?_⟩
    simp only [hthreads, decide_true, Account.next_none]
    rw [hfind, if_pos rfl]
    refine .idle fun k hheld => ?_
    cases hf with
    | explicit _ _ _ hkeeps =>
      rw [hranges]
      exact hkeeps k hheld
    | enters _ _ hp₁ _ _ => simp [henters] at hp₁
    | holds _ hsome _ _ _ => simp [hk] at hsome
    | gone _ _ _ hg _ => exact absurd (hg.1.symm.trans hheld) (by simp)
  | some k =>
    have hranges : (w.leave t call outcome).stack.ranges = w.stack.ranges.store k call.policy := by
      simp only [leave, hk]
    cases hf with
    | explicit _ hnone _ _ => simp [hk] at hnone
    | enters _ hnone _ _ _ => simp [hk] at hnone
    | gone _ hnone _ _ _ => simp [hk] at hnone
    | holds hown hsome _ hheld hpolicy =>
      obtain rfl := Option.some.inj (hk.symm.trans hsome)
      refine ⟨⟨rfl, by rw [hranges]; rfl, .inl rfl, hothers, fun id => ?_⟩, ?_⟩
      · rw [hranges, RangeTable.get_store]
        split
        · next hid => exact .inr ⟨k, hheld, hid, rfl⟩
        · exact .inl rfl
      · simp only [hthreads, decide_true, Account.next_none]
        rw [hfind, if_pos rfl]
        refine .idle fun k' hk' => ?_
        obtain rfl := Option.some.inj (hheld.symm.trans hk')
        rw [hranges, RangeTable.load_store_self, ha.template, hpolicy]
        rfl

/-- Whatever the call of a thread does next, its range goes by its account. -/
theorem steps_stepAt (ha : Accounted c w accounts) (t : Nat) (a? : Option Address) :
    Steps c w t (accounts t) (w.ends? t) (w.stepAt a? t) := by
  have hf := ha.follows t
  unfold stepAt
  cases hc : w.flights.find? t with
  | none =>
    have hends : w.ends? t = none := by simp only [ends?, hc]
    rw [hends]
    refine ⟨(Quiet.refl w t).aside, ?_⟩
    rw [hc] at hf ⊢
    exact (Quiet.refl w t).follows ha hf
  | some call =>
    rw [hc] at hf
    cases hp : call.point with
    | enter offer =>
      rw [ends?_of_point hc hp fun _ _ => by simp]
      simp only [hp]
      exact steps_enter ha hf hp
    | attempt offer =>
      have hends := ends?_of_point hc hp fun _ _ => by simp
      have henters : call.point.enters = false := by rw [hp]; rfl
      cases offer with
      | some value =>
        simp only [hp]
        exact (within_attemptPush hends value).steps ha hf henters
      | none =>
        simp only [hp]
        exact (within_attemptPop hends).steps ha hf henters
    | visit offer =>
      have hends := ends?_of_point hc hp fun _ _ => by simp
      simp only [hp]
      exact (within_visit hends offer a?).steps ha hf (by rw [hp]; rfl)
    | meeting place x =>
      simp only [hp]
      exact (within_meet hc hp).steps ha hf (by rw [hp]; rfl)
    | leave outcome =>
      rw [ends?_of_point hc hp fun _ _ => by simp]
      simp only [hp]
      exact steps_leave ha hf hp
    | stuck why lost? =>
      rw [ends?_of_point hc hp fun _ _ => by simp]
      simp only [hp]
      refine ⟨(Quiet.refl w t).aside, ?_⟩
      rw [hc]
      exact (Quiet.refl w t).follows ha hf

/-! ## Turns -/

theorem Quiet.steps (h : w.Quiet t w') (ha : Accounted c w accounts)
    (hfind : w'.flights.find? t = w.flights.find? t) : Steps c w t (accounts t) none w' :=
  ⟨h.aside, hfind ▸ h.follows ha (ha.follows t)⟩

theorem Steps.accounted {x : Turn α} {o? : Option RangePolicy.Outcome}
    (h : Steps c w t (accounts t) o? w') (ha : Accounted c w accounts) (hturn : w.turn x = w')
    (hx : ∀ u, u ≠ t → x.thread? ≠ some u) (hbegins : x.begins? t w = none)
    (hends : x.ends? t w = o?) : Accounted c (w.turn x) fun u => (accounts u).turn u w x := by
  subst hturn hends
  refine ha.of_aside hx h.aside ?_
  rw [Account.turn_of_begins? hbegins]
  exact h.follows

theorem find?_of_not_busy (h : ¬ w.busy t = true) : w.flights.find? t = none := by
  simpa [busy] using h

theorem steps_end (hb : ¬ w.busy t = true) {m : Threads.Move} (hm : m = .leave t ∨ m = .finish t) :
    Steps c w t a none { w with threads := w.threads.move m } := by
  have hthread : m.thread = t := by rcases hm with rfl | rfl <;> rfl
  have hnone : (w.threads.move m).token? t = none := by
    rcases hm with rfl | rfl
    · rw [Threads.token?_leave, if_pos rfl]
    · rw [Threads.token?_finish, if_pos rfl]
  refine ⟨⟨rfl, rfl, .inr ⟨m, hthread, rfl⟩, fun _ _ => rfl, fun _ => .inl rfl⟩, ?_⟩
  show Follows c _ t _ (w.flights.find? t)
  rw [find?_of_not_busy hb]
  exact .idle fun k hk => by simp [hnone] at hk

theorem accounted_begin (ha : Accounted c w accounts) (hb : ¬ w.busy t = true) {x : Turn α}
    (hx : x.thread? = some t) {own : Bool} (hbegins : x.begins? t w = some own)
    (hends : x.ends? t w = none) (hturn : w.turn x = w.continueAs t call)
    (hnone : call.token? = none) (henters : call.point.enters = own) :
    Accounted c (w.turn x) fun u => (accounts u).turn u w x := by
  have hquiet := (Quiet.refl w t).continueAs call
  have hkeeps : w.Keeps c t (accounts t).since := by
    have hf := ha.follows t
    rw [find?_of_not_busy hb] at hf
    cases hf with
    | idle hk => exact hk
  have haccount : (accounts t).turn t w x = { accounts t with own, lately := [] } := by
    have hsame : (w.continueAs t call).threads = w.threads := rfl
    unfold Account.turn
    rw [hbegins, hends, hturn, hsame, decide_eq_true rfl, Account.next_none]
  refine ha.of_aside (fun u hu => by simpa [hx] using hu.symm) (hturn ▸ hquiet.aside) ?_
  rw [haccount, hturn, find?_self]
  cases own with
  | true => exact .enters rfl hnone henters rfl hkeeps
  | false => exact .explicit rfl hnone henters hkeeps

/-- No turn of any thread puts the books out of order. -/
theorem Accounted.turn (ha : Accounted c w accounts) (x : Turn α) :
    Accounted c (w.turn x) fun u => (accounts u).turn u w x := by
  have hrest : ∀ t, Steps c w t (accounts t) none w := fun t => (Quiet.refl w t).steps ha rfl
  have honly : ∀ {t u : Nat}, u ≠ t → some t ≠ some u := fun hu h => hu (Option.some.inj h).symm
  cases x with
  | ask t =>
    have hquiet : w.Quiet t (w.turn (.ask t)) := ⟨rfl, rfl, fun _ => rfl, .inr rfl, fun _ _ => rfl⟩
    exact (hquiet.steps ha rfl).accounted ha rfl (fun _ => honly) rfl rfl
  | event e =>
    cases e with
    | start t offer random =>
      by_cases hb : w.busy t = true
      · exact (hrest t).accounted ha (if_pos hb) (fun _ => honly) (if_neg (by simp [hb])) rfl
      · exact accounted_begin ha hb rfl (if_pos ⟨rfl, hb⟩) rfl (if_neg hb) rfl rfl
    | startWith t policy offer random =>
      by_cases hb : w.busy t = true
      · exact (hrest t).accounted ha (if_pos hb) (fun _ => honly) (if_neg (by simp [hb])) rfl
      · exact accounted_begin ha hb rfl (if_pos ⟨rfl, hb⟩) rfl (if_neg hb) rfl rfl
    | step t =>
      exact (steps_stepAt ha t none).accounted ha rfl (fun _ => honly) rfl (if_pos rfl)
    | stepAt t a =>
      by_cases hv : w.Vacant a
      · exact (steps_stepAt ha t (some a)).accounted ha (if_pos hv) (fun _ => honly) rfl
          (if_pos ⟨rfl, hv⟩)
      · exact (hrest t).accounted ha (if_neg hv) (fun _ => honly) rfl (if_neg fun h => hv h.2)
    | advance nanos =>
      have hquiet : w.Quiet 0 (w.advance nanos) := ⟨rfl, rfl, fun _ => rfl, .inl rfl, fun _ _ => rfl⟩
      exact (hquiet.steps ha rfl).accounted ha rfl (fun _ _ => by simp [Turn.thread?]) rfl rfl
    | wall micros =>
      have hquiet : w.Quiet 0 { w with wall := micros } :=
        ⟨rfl, rfl, fun _ => rfl, .inl rfl, fun _ _ => rfl⟩
      exact (hquiet.steps ha rfl).accounted ha rfl (fun _ _ => by simp [Turn.thread?]) rfl rfl
    | contend on =>
      have hquiet : w.Quiet 0 (w.contend on) := (Quiet.refl w 0).putStack _
      exact (hquiet.steps ha rfl).accounted ha rfl (fun _ _ => by simp [Turn.thread?]) rfl rfl
    | beginExit t =>
      by_cases hb : w.busy t = true
      · exact (hrest t).accounted ha (if_pos hb) (fun _ => honly) rfl rfl
      · exact (steps_end hb (.inl rfl)).accounted ha (if_neg hb) (fun _ => honly) rfl rfl
    | finishExit t =>
      by_cases hb : w.busy t = true
      · exact (hrest t).accounted ha (if_pos hb) (fun _ => honly) rfl rfl
      · exact (steps_end hb (.inr rfl)).accounted ha (if_neg hb) (fun _ => honly) rfl rfl

theorem Accounted.new (h : c.Ordered) (earlier : List Threads.Move) (clock : Nat) (wall : Int64) :
    Accounted c
      ({ stack := .ofConfig c, threads := ({} : Threads).after earlier, clock, wall } : World α)
      fun _ => {} := by
  obtain ⟨h₁, h₂, h₃, h₄⟩ := h
  have hb := Threads.Booked.new.after earlier
  have hfresh : ∀ id, (SegmentTable.new : SegmentTable RangeSlot).get id = {} := SegmentTable.get_new
  refine ⟨⟨h₁, h₂, h₃, h₄⟩, ?_, Config.Ordered.rangePolicy_eq ⟨h₁, h₂, h₃, h₄⟩, ⟨_, _, hb⟩,
    fun id => ?_, fun t => .idle fun k hk => ?_⟩
  · simp only [EliminationStack.ofConfig, List.length_replicate]
    omega
  · simp only [EliminationStack.ofConfig, hfresh]
    exact hb.first
  · refine (RangeTable.load_of_older ?_).trans (Config.Ordered.rangePolicy_eq ⟨h₁, h₂, h₃, h₄⟩)
    simp only [EliminationStack.ofConfig, hfresh]
    exact (hb.generation_bounds hk).1

end World

end BackoffStack
