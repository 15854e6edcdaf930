/-
Tokens are unique and dense.

In whatever order threads ask for their tokens, begin to exit and are over, also asking on their way out
(`Threads.Move`): the ids that are held and those that wait to be handed out again are together the
numbers from one to the most tokens that were ever held at once, each once, and every token has a
later generation than those before it (`Threads.unique_and_dense`). That is so because a number is
made only when none waits, so that all numbers made so far are held.
-/
import BackoffStack.Schedule
import BackoffStack.Scenario.Tokens
import Mathlib.Data.List.Nodup
import Mathlib.Data.List.Range

namespace BackoffStack

namespace Threads

/-- What a thread does to its token. A thread that starts is not known until it asks. -/
inductive Move where
  | ask (t : Nat)
  /-- The thread is on its way out. -/
  | leave (t : Nat)
  /-- The thread is over, and its name may stand for another one. -/
  | finish (t : Nat)

/-- The thread that makes a move. -/
def Move.thread : Move → Nat
  | .ask t | .leave t | .finish t => t

/-- The threads after one move. -/
def move (ts : Threads) : Move → Threads
  | .ask t => (ts.ask t).2
  | .leave t => ts.beginExit t
  | .finish t => ts.finishExit t

/-- The threads after moves in any order. -/
def after (ts : Threads) (moves : List Move) : Threads := moves.foldl move ts

/-- The token that a move makes, if it makes one. -/
def Move.makes? (m : Move) (ts : Threads) : Option ThreadToken :=
  match m with
  | .ask t => if (ts.token? t).isSome then none else (ts.ask t).1.toOption
  | .leave _ | .finish _ => none

/-- The tokens that are made by moves, in that order. -/
def issued (ts : Threads) : List Move → List ThreadToken
  | [] => []
  | m :: moves => (m.makes? ts).toList ++ (ts.move m).issued moves

/-- The most tokens that are held at once, before, between or after moves. -/
def peak (ts : Threads) : List Move → Nat
  | [] => ts.holders.length
  | m :: moves => max ts.holders.length ((ts.move m).peak moves)

/-- The ids that are held. -/
def heldIds (ts : Threads) : List Nat := ts.holders.map (·.2.id)

/-- Which tokens there are, after some were issued and at most `most` were held at once. -/
structure Dense (ts : Threads) (issued : List ThreadToken) (most : Nat) : Prop where
  /-- The holders are the threads with a token, each listed once. -/
  held : ∀ t token, (t, token) ∈ ts.holders ↔ ts.token? t = some token
  distinct : ts.heldIds.Nodup
  proper : exitingId ∉ ts.heldIds
  apart : ts.heldIds.Disjoint ts.pool.free
  pooled : ts.pool.free.Nodup
  /-- No number is left out, and none is too large. -/
  dense : ∀ id, id ∈ ts.heldIds ∨ id ∈ ts.pool.free ↔ 1 ≤ id ∧ id ≤ most
  known : ∀ t token, ts.token? t = some token → token ∈ issued
  increasing : issued.Pairwise (·.generation < ·.generation)

/-- How long a token lasts, and what a thread is told on its way out. -/
structure Lasting (ts : Threads) : Prop where
  /-- A thread keeps its token until it leaves or is over, and is told that token whenever it asks. -/
  kept : ∀ t token, ts.token? t = some token → ∀ later, .leave t ∉ later → .finish t ∉ later →
    (ts.after later).token? t = some token ∧ ((ts.after later).ask t).1 = .ok token
  /-- Then its id waits to be handed out again. -/
  ends : ∀ t token, ts.token? t = some token → ∀ m, m = .leave t ∨ m = .finish t →
    (ts.move m).token? t = none ∧ token.id ∈ (ts.move m).pool.free
  /-- From then on until it is over, it is told no other. -/
  refused : ∀ t token, ts.token? t = some token → ∀ later, .finish t ∉ later →
    ((ts.move (.leave t)).after later).ask t =
      (.error .threadExiting, (ts.move (.leave t)).after later)
  /-- A thread that has never asked gets a token even then. -/
  granted : ∀ t, ts.token? t = none → t ∉ ts.dismissed →
    ∃ token, ((ts.move (.leave t)).ask t).1 = .ok token ∧
      ((ts.move (.leave t)).move (.ask t)).token? t = some token

/-! ## One move -/

variable {ts : Threads} {t u : Nat} {token : ThreadToken}

/-- A step of a script is a few moves of one thread. No proof needs this: it connects scripts to runs, so that
whatever holds after all moves holds after all scripts. -/
theorem exists_after_step (ts : Threads) (x : TokenScenario.Step) :
    ∃ moves, (TokenScenario.step ts x).2 = ts.after moves := by
  cases x with
  | ask t => exact ⟨[.ask t], rfl⟩
  | exit t => exact ⟨[.leave t, .ask t, .finish t], rfl⟩

/-- The thread that gets a token is the first among the holders. -/
def grant (ts : Threads) (t : Nat) : Threads :=
  { ts with pool := ts.pool.allocate.2, holders := (t, ts.pool.allocate.1) :: ts.holders }

theorem ask_of_some (h : ts.token? t = some token) : ts.ask t = (.ok token, ts) := by
  simp only [ask, h]

theorem ask_of_dismissed (h : ts.token? t = none) (hd : t ∈ ts.dismissed) :
    ts.ask t = (.error .threadExiting, ts) := by
  simp only [ask, h, if_pos hd]

theorem ask_of_none (h : ts.token? t = none) (hd : t ∉ ts.dismissed) :
    ts.ask t = (.ok ts.pool.allocate.1, ts.grant t) := by
  simp only [ask, h, if_neg hd, grant]

theorem token?_grant (ts : Threads) (t u : Nat) :
    (ts.grant t).token? u = if u = t then some ts.pool.allocate.1 else ts.token? u := by
  unfold grant token?
  by_cases hu : u = t
  · simp [hu]
  · simp [hu, List.lookup_cons, beq_eq_false_iff_ne.2 hu]

theorem ask_cases (ts : Threads) (t : Nat) :
    (ts.ask t).2 = ts ∧ (Move.ask t).makes? ts = none ∨
      ts.token? t = none ∧ t ∉ ts.dismissed ∧ (ts.ask t).2 = ts.grant t ∧
        (Move.ask t).makes? ts = some ts.pool.allocate.1 := by
  cases h : ts.token? t with
  | some token => simp [Move.makes?, ask_of_some h, h]
  | none =>
    by_cases hd : t ∈ ts.dismissed
    · simp [Move.makes?, ask_of_dismissed h hd, h, Except.toOption]
    · simp [Move.makes?, ask_of_none h hd, h, hd, Except.toOption]

theorem token?_giveBack (ts : Threads) (t u : Nat) :
    (ts.giveBack t).token? u = if u = t then none else ts.token? u := by
  cases h : ts.token? t with
  | some token =>
    simp only [giveBack, h]
    exact Flights.lookup_filter_ne t u ts.holders
  | none =>
    simp only [giveBack, h]
    split
    · next hu => rw [hu, h]
    · rfl

theorem token?_leave (ts : Threads) (t u : Nat) :
    (ts.move (.leave t)).token? u = if u = t then none else ts.token? u := by
  rw [← token?_giveBack]
  cases h : ts.token? t with
  | some token =>
    simp only [move, beginExit, h]
    rfl
  | none => simp only [move, beginExit, giveBack, h]

theorem token?_finish (ts : Threads) (t u : Nat) :
    (ts.move (.finish t)).token? u = if u = t then none else ts.token? u :=
  token?_giveBack ts t u

/-- What one thread does leaves the tokens of all others alone. -/
theorem token?_move_of_ne (ts : Threads) {m : Move} (h : m.thread ≠ u) :
    (ts.move m).token? u = ts.token? u := by
  have hne : u ≠ m.thread := Ne.symm h
  cases m with
  | ask t =>
    show (ts.ask t).2.token? u = _
    rcases ask_cases ts t with ⟨hs, -⟩ | ⟨-, -, hs, -⟩
    · rw [hs]
    · rw [hs, token?_grant]
      exact if_neg hne
  | leave t => exact (token?_leave ts t u).trans (if_neg hne)
  | finish t => exact (token?_finish ts t u).trans (if_neg hne)

/-- A thread that has a token keeps it through all moves but its own last ones. -/
theorem token?_move (h : ts.token? t = some token) (m : Move) (hl : m ≠ .leave t)
    (hf : m ≠ .finish t) : (ts.move m).token? t = some token := by
  cases m with
  | ask u =>
    show (ts.ask u).2.token? t = some token
    rcases ask_cases ts u with ⟨hs, -⟩ | ⟨hu, -, hs, -⟩
    · rw [hs, h]
    · rw [hs, token?_grant, if_neg (by rintro rfl; simp [h] at hu), h]
  | leave u => rw [token?_leave, if_neg (by rintro rfl; exact hl rfl), h]
  | finish u => rw [token?_finish, if_neg (by rintro rfl; exact hf rfl), h]

theorem token?_after (h : ts.token? t = some token) {later : List Move} (hl : .leave t ∉ later)
    (hf : .finish t ∉ later) : (ts.after later).token? t = some token := by
  induction later generalizing ts with
  | nil => exact h
  | cons m later ih =>
    simp only [List.mem_cons, not_or] at hl hf
    exact ih (token?_move h m (Ne.symm hl.1) (Ne.symm hf.1)) hl.2 hf.2

/-! ## Dismissed threads -/

/-- The thread still runs, and its token is gone. -/
def Gone (ts : Threads) (t : Nat) : Prop := ts.token? t = none ∧ t ∈ ts.dismissed

theorem Gone.move (h : ts.Gone t) (m : Move) (hf : m ≠ .finish t) : (ts.move m).Gone t := by
  obtain ⟨hn, hd⟩ := h
  cases m with
  | ask u =>
    show (ts.ask u).2.Gone t
    rcases ask_cases ts u with ⟨hs, -⟩ | ⟨-, hu, hs, -⟩
    · rw [hs]
      exact ⟨hn, hd⟩
    · rw [hs]
      exact ⟨by rw [token?_grant, if_neg (by rintro rfl; exact hu hd), hn], hd⟩
  | leave u =>
    refine ⟨by rw [token?_leave, hn, ite_self], ?_⟩
    show t ∈ (ts.beginExit u).dismissed
    unfold beginExit giveBack
    split <;> simp [hd]
  | finish u =>
    refine ⟨by rw [token?_finish, hn, ite_self], ?_⟩
    have hu : t ≠ u := by rintro rfl; exact hf rfl
    show t ∈ (ts.finishExit u).dismissed
    unfold finishExit giveBack
    split <;> simp [hd, hu]

theorem Gone.after (h : ts.Gone t) {later : List Move} (hf : .finish t ∉ later) :
    (ts.after later).Gone t := by
  induction later generalizing ts with
  | nil => exact h
  | cons m later ih =>
    simp only [List.mem_cons, not_or] at hf
    exact ih (h.move m (Ne.symm hf.1)) hf.2

theorem gone_leave (h : ts.token? t = some token) : (ts.move (.leave t)).Gone t := by
  refine ⟨by rw [token?_leave, if_pos rfl], ?_⟩
  show t ∈ (ts.beginExit t).dismissed
  simp [beginExit, h]

/-- A thread that asks holds the token that it is told by then, or its token is gone. -/
theorem ask_eq (ts : Threads) (t : Nat) : ts.Gone t ∧ ts.ask t = (.error .threadExiting, ts) ∨
    ∃ token, (ts.move (.ask t)).token? t = some token ∧
      ts.ask t = (.ok token, ts.move (.ask t)) := by
  show _ ∨ ∃ token, (ts.ask t).2.token? t = some token ∧ ts.ask t = (.ok token, (ts.ask t).2)
  cases h : ts.token? t with
  | some token => exact .inr ⟨token, by rw [ask_of_some h, h], by rw [ask_of_some h]⟩
  | none =>
    by_cases hd : t ∈ ts.dismissed
    · exact .inl ⟨⟨h, hd⟩, ask_of_dismissed h hd⟩
    · rw [ask_of_none h hd]
      exact .inr ⟨_, by rw [token?_grant, if_pos rfl], rfl⟩

/-- Whom a thread acts as: it holds a token with that id by then, or its token is gone. -/
theorem identify_cases (ts : Threads) (t : Nat) :
    (∃ token, (ts.identify t).1 = .live token.id ∧ (ts.identify t).2.token? t = some token) ∨
      ts.Gone t ∧ ts.identify t = (.exiting, ts) := by
  unfold identify
  rcases ts.ask_eq t with ⟨hgone, h⟩ | ⟨token, ht, h⟩
  · exact .inr ⟨hgone, by rw [h]⟩
  · exact .inl ⟨token, by rw [h], by rw [h]; exact ht⟩

theorem identify_identify (ts : Threads) (t : Nat) :
    (ts.identify t).2.identify t = ts.identify t := by
  rcases ts.identify_cases t with ⟨token, hwho, ht⟩ | ⟨-, h⟩
  · have hsame : (ts.identify t).2.identify t = (.live token.id, (ts.identify t).2) := by
      rw [identify, ask_of_some ht]
    rw [hsame, ← hwho]
  · rw [h]
    exact h

theorem identify_move (ts : Threads) (t : Nat) : (ts.identify t).2 = ts.move (.ask t) := by
  show _ = (ts.ask t).2
  unfold identify
  split
  · next h => rw [h]
  · next h => rw [h]

theorem identify_eq_iff {who : Identity} : ts.identify t = (who, ts) ↔
    (∃ token, who = .live token.id ∧ ts.token? t = some token) ∨ who = .exiting ∧ ts.Gone t := by
  constructor
  · intro h
    rcases ts.identify_cases t with ⟨token, hwho, ht⟩ | ⟨hgone, hsame⟩
    · rw [h] at hwho ht
      exact .inl ⟨token, hwho, ht⟩
    · rw [h] at hsame
      exact .inr ⟨congrArg Prod.fst hsame, hgone⟩
  · rintro (⟨token, rfl, ht⟩ | ⟨rfl, hn, hd⟩)
    · rw [identify, ask_of_some ht]
    · rw [identify, ask_of_dismissed hn hd]

theorem identify_eq_move {who : Identity} (h : ts.identify t = (who, ts)) (m : Move)
    (hl : m ≠ .leave t) (hf : m ≠ .finish t) : (ts.move m).identify t = (who, ts.move m) := by
  rw [identify_eq_iff] at h ⊢
  rcases h with ⟨token, hwho, ht⟩ | ⟨hwho, hgone⟩
  · exact .inl ⟨token, hwho, token?_move ht m hl hf⟩
  · exact .inr ⟨hwho, hgone.move m hf⟩

/-! ## Generations -/

theorem generation_allocate (p : TokenPool) : p.allocate.1.generation = p.nextGeneration ∧
    p.allocate.2.nextGeneration = p.nextGeneration + 1 := by
  unfold TokenPool.allocate
  split <;> exact ⟨rfl, rfl⟩

theorem nextGeneration_giveBack (ts : Threads) (t : Nat) :
    (ts.giveBack t).pool.nextGeneration = ts.pool.nextGeneration := by
  unfold giveBack
  split <;> rfl

theorem nextGeneration_le_move (ts : Threads) (m : Move) :
    ts.pool.nextGeneration ≤ (ts.move m).pool.nextGeneration := by
  cases m with
  | ask t =>
    show _ ≤ (ts.ask t).2.pool.nextGeneration
    rcases ask_cases ts t with ⟨hs, -⟩ | ⟨-, -, hs, -⟩
    · rw [hs]
    · rw [hs]
      exact (generation_allocate ts.pool).2.symm ▸ Nat.le_succ _
  | leave t =>
    have hback := (nextGeneration_giveBack ts t).ge
    show _ ≤ (ts.beginExit t).pool.nextGeneration
    unfold beginExit
    split
    · exact hback
    · exact Nat.le_refl _
  | finish t => exact (nextGeneration_giveBack ts t).ge

/-! ## Books of the pool -/

/-- All ids up to `most` are held or free, and none twice; the tokens that were made so far are known. -/
structure Booked (ts : Threads) (issued : List ThreadToken) (most : Nat) : Prop where
  keys : (ts.holders.map (·.1)).Nodup
  ids : (ts.heldIds ++ ts.pool.free).Perm (List.range' 1 most)
  next : ts.pool.nextId = most + 1
  known : ∀ e ∈ ts.holders, e.2 ∈ issued
  first : 0 < ts.pool.nextGeneration
  older : ∀ token ∈ issued, 0 < token.generation ∧ token.generation < ts.pool.nextGeneration
  increasing : issued.Pairwise (·.generation < ·.generation)

namespace Booked

variable {past : List ThreadToken} {most : Nat}

theorem new : ({} : Threads).Booked [] 0 :=
  ⟨by simp, by simp [heldIds], rfl, by simp, Nat.zero_lt_one, by simp, by simp⟩

theorem length (h : ts.Booked past most) : ts.holders.length + ts.pool.free.length = most := by
  simpa [heldIds] using h.ids.length_eq

theorem mem_holders (h : ts.Booked past most) :
    (t, token) ∈ ts.holders ↔ ts.token? t = some token := by
  have hk := h.keys
  unfold token?
  generalize ts.holders = es at hk
  induction es with
  | nil => simp
  | cons e es ih =>
    obtain ⟨u, k⟩ := e
    simp only [List.map_cons, List.nodup_cons, List.mem_map, not_exists, not_and] at hk
    by_cases hu : t = u
    · subst hu
      have hnot : (t, token) ∉ es := fun he => hk.1 _ he rfl
      simp [hnot, eq_comm]
    · simp [hu, List.lookup_cons, beq_eq_false_iff_ne.2 hu, ih hk.2]

theorem id_ne (h : ts.Booked past most) {k : ThreadToken} (ht : ts.token? t = some token)
    (hu : ts.token? u = some k) (hne : t ≠ u) : token.id ≠ k.id := by
  have hnodup := (List.nodup_append.1 (h.ids.nodup_iff.2 List.nodup_range')).1
  intro hid
  have hentry := List.inj_on_of_nodup_map hnodup (h.mem_holders.2 ht) (h.mem_holders.2 hu) hid
  exact hne (congrArg Prod.fst hentry)

/-- Nobody who holds a token acts under the id of those whose token is gone. -/
theorem id_ne_exitingId (h : ts.Booked past most) (ht : ts.token? t = some token) :
    token.id ≠ exitingId := by
  have hheld : token.id ∈ ts.heldIds ++ ts.pool.free :=
    List.mem_append_left _ (List.mem_map_of_mem (f := (·.2.id)) (h.mem_holders.2 ht))
  have hrange := List.mem_range'_1.1 (h.ids.mem_iff.1 hheld)
  unfold exitingId
  omega

theorem generation_bounds (h : ts.Booked past most) (ht : ts.token? t = some token) :
    0 < token.generation ∧ token.generation < ts.pool.nextGeneration :=
  h.older _ (h.known _ (h.mem_holders.2 ht))

/-- A new number is made only when all others are held: then there are more holders than ever. -/
theorem grant (h : ts.Booked past most) (ht : ts.token? t = none) :
    (ts.grant t).Booked (past ++ [ts.pool.allocate.1]) (max most (ts.grant t).holders.length) := by
  have hgen : ts.pool.allocate.1.generation = ts.pool.nextGeneration ∧
      (ts.grant t).pool.nextGeneration = ts.pool.nextGeneration + 1 := generation_allocate ts.pool
  have hlen := h.length
  have hids : ((ts.grant t).heldIds ++ (ts.grant t).pool.free).Perm
        (List.range' 1 (max most (ts.grant t).holders.length)) ∧
      (ts.grant t).pool.nextId = max most (ts.grant t).holders.length + 1 := by
    have hold := h.ids
    have hnext := h.next
    unfold Threads.grant TokenPool.allocate heldIds
    unfold heldIds at hold
    split
    · next id free hfree =>
      rw [hfree] at hold
      simp only [hfree, List.length_cons] at hlen
      have hmost : max most (ts.holders.length + 1) = most := Nat.max_eq_left (by omega)
      simp only [List.map_cons, List.length_cons, hmost]
      exact ⟨List.perm_middle.symm.trans hold, hnext⟩
    · next hfree =>
      rw [hfree, List.append_nil] at hold
      simp only [hfree, List.length_nil, Nat.add_zero] at hlen
      have hmost : max most (ts.holders.length + 1) = most + 1 := by omega
      simp only [List.map_cons, List.length_cons, hmost, hnext, hfree, List.append_nil, and_true]
      rw [List.range'_1_concat, Nat.add_comm 1 most]
      exact (hold.cons _).trans (List.perm_append_singleton _ _).symm
  refine ⟨?_, hids.1, hids.2, ?_, hgen.2 ▸ Nat.succ_pos _, ?_, ?_⟩
  · refine List.nodup_cons.2 ⟨fun hm => ?_, h.keys⟩
    obtain ⟨⟨u, token⟩, he, rfl⟩ := List.mem_map.1 hm
    simp [h.mem_holders.1 he] at ht
  · intro e he
    rcases List.mem_cons.1 he with rfl | he
    · exact List.mem_append_right _ (List.mem_singleton.2 rfl)
    · exact List.mem_append_left _ (h.known e he)
  · intro token htoken
    rw [hgen.2]
    rcases List.mem_append.1 htoken with htoken | htoken
    · exact (h.older token htoken).imp_right Nat.lt_succ_of_lt
    · obtain rfl := List.mem_singleton.1 htoken
      rw [hgen.1]
      exact ⟨h.first, Nat.lt_succ_self _⟩
  · refine List.pairwise_append.2 ⟨h.increasing, List.pairwise_singleton .., fun a ha b hb => ?_⟩
    obtain rfl := List.mem_singleton.1 hb
    exact hgen.1 ▸ (h.older a ha).2

theorem perm_cons_filter_key {β : Type} {es : List (Nat × β)} (hk : (es.map (·.1)).Nodup) {b : β}
    (h : (t, b) ∈ es) : es.Perm ((t, b) :: es.filter (·.1 ≠ t)) := by
  induction es with
  | nil => simp at h
  | cons e es ih =>
    simp only [List.map_cons, List.nodup_cons, List.mem_map, not_exists, not_and] at hk
    rcases List.mem_cons.1 h with rfl | h
    · have hrest : es.filter (·.1 ≠ t) = es :=
        List.filter_eq_self.2 fun e he => by simpa using hk.1 e he
      rw [List.filter_cons_of_neg (by simp), hrest]
    · have hne : e.1 ≠ t := fun he => hk.1 _ h he.symm
      rw [List.filter_cons_of_pos (by simpa using hne)]
      exact ((ih hk.2 h).cons e).trans (.swap ..)

theorem giveBack (h : ts.Booked past most) (t : Nat) : (ts.giveBack t).Booked past most := by
  unfold Threads.giveBack
  cases ht : ts.token? t with
  | none => exact h
  | some token =>
    have hperm := perm_cons_filter_key h.keys (h.mem_holders.2 ht)
    have hids := (hperm.map (·.2.id)).append_right ts.pool.free
    refine ⟨h.keys.sublist (List.filter_sublist.map _), ?_, h.next, fun e he => ?_, h.first, h.older,
      h.increasing⟩
    · exact List.perm_middle.trans (hids.symm.trans h.ids)
    · exact h.known e (List.mem_filter.1 he).1

theorem leave (h : ts.Booked past most) (t : Nat) : (ts.move (.leave t)).Booked past most := by
  have hb := h.giveBack t
  cases ht : ts.token? t with
  | some token =>
    simp only [Threads.move, beginExit, ht]
    exact ⟨hb.keys, hb.ids, hb.next, hb.known, hb.first, hb.older, hb.increasing⟩
  | none =>
    simp only [Threads.move, beginExit, ht]
    exact h

theorem finish (h : ts.Booked past most) (t : Nat) : (ts.move (.finish t)).Booked past most := by
  have hb := h.giveBack t
  exact ⟨hb.keys, hb.ids, hb.next, hb.known, hb.first, hb.older, hb.increasing⟩

theorem move (h : ts.Booked past most) (m : Move) :
    (ts.move m).Booked (past ++ (m.makes? ts).toList) (max most (ts.move m).holders.length) := by
  have hsame : ∀ {ts' : Threads}, ts'.Booked past most →
      ts'.Booked (past ++ []) (max most ts'.holders.length) := by
    intro ts' hb
    have hlen := hb.length
    rwa [List.append_nil, Nat.max_eq_left (by omega)]
  cases m with
  | ask t =>
    show (ts.ask t).2.Booked _ (max most (ts.ask t).2.holders.length)
    rcases ask_cases ts t with ⟨hs, hm⟩ | ⟨ht, -, hs, hm⟩
    · rw [hs, hm]
      exact hsame h
    · rw [hs, hm]
      exact h.grant ht
  | leave t => exact hsame (h.leave t)
  | finish t => exact hsame (h.finish t)

/-- Through all moves, what is issued goes into the books, and the most that are held. -/
theorem after (h : ts.Booked past most) (moves : List Move) :
    (ts.after moves).Booked (past ++ ts.issued moves) (max most (ts.peak moves)) := by
  induction moves generalizing ts past most with
  | nil =>
    have hlen := h.length
    rw [issued, List.append_nil, peak, Nat.max_eq_left (by omega)]
    exact h
  | cons m moves ih =>
    have hlen := h.length
    have hpeak : (ts.move m).holders.length ≤ (ts.move m).peak moves := by
      cases moves with
      | nil => exact Nat.le_refl _
      | cons => exact Nat.le_max_left ..
    have hmost : max most (ts.peak (m :: moves)) =
        max (max most (ts.move m).holders.length) ((ts.move m).peak moves) := by
      rw [peak]
      omega
    rw [hmost, issued, ← List.append_assoc]
    exact ih (h.move m)

theorem dense (h : ts.Booked past most) : ts.Dense past most := by
  have hnodup := h.ids.nodup_iff.2 List.nodup_range'
  obtain ⟨hheld, hpooled, hapart⟩ := List.nodup_append.1 hnodup
  have hmem : ∀ id, id ∈ ts.heldIds ∨ id ∈ ts.pool.free ↔ 1 ≤ id ∧ id ≤ most := by
    intro id
    rw [← List.mem_append, h.ids.mem_iff, List.mem_range'_1]
    omega
  refine ⟨fun _ _ => h.mem_holders, hheld, fun hz => ?_, fun id hid hfree => hapart id hid id hfree rfl,
    hpooled, hmem, fun t token ht => h.known _ (h.mem_holders.2 ht), h.increasing⟩
  exact absurd ((hmem exitingId).1 (.inl hz)).1 (by decide)

end Booked

/-! ## Runs -/

theorem lasting (ts : Threads) : ts.Lasting where
  kept t token h later hl hf := by
    have ht := token?_after h hl hf
    exact ⟨ht, by rw [ask_of_some ht]⟩
  ends t token h m hm := by
    have hback : token.id ∈ (ts.giveBack t).pool.free := by
      simp [giveBack, h, TokenPool.giveBack]
    rcases hm with rfl | rfl
    · refine ⟨by rw [token?_leave, if_pos rfl], ?_⟩
      simp only [move, beginExit, h]
      exact hback
    · exact ⟨by rw [token?_finish, if_pos rfl], hback⟩
  refused t token h later hf := by
    obtain ⟨hn, hd⟩ := (gone_leave h).after hf
    exact ask_of_dismissed hn hd
  granted t h hd := by
    have hsame : ts.move (.leave t) = ts := by simp only [move, beginExit, h]
    rw [hsame]
    refine ⟨_, congrArg Prod.fst (ask_of_none h hd), ?_⟩
    show (ts.ask t).2.token? t = _
    rw [ask_of_none h hd, token?_grant, if_pos rfl]

/-- After any moves of any threads: the ids that are held or wait to be handed out are the numbers up to
the most tokens that were ever held at once, each once; a token lasts until its thread leaves; and
generations only grow. -/
theorem unique_and_dense (moves : List Move) :
    let ts := ({} : Threads).after moves
    ts.Dense (issued {} moves) (peak {} moves) ∧ ts.Lasting := by
  have h := Booked.new.after moves
  rw [List.nil_append, Nat.zero_max] at h
  exact ⟨h.dense, lasting _⟩

end Threads

end BackoffStack
