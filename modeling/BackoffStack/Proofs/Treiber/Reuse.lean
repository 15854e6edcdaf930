/-
Addresses may be used again.

That the top is still at the address that an attempt has found there does not say that it is the same
node. For a push this does not matter, as it only links its node to that address. For a pop it is the same
node: the pop had its pin before the node could be handed to the epoch, so the node has not been freed, and
what it is linked to has not changed since it came onto the chain.

Each address is in one of a few conditions (`Memory.Spot`), and a step changes that of one address. What
an attempt relies on follows from the conditions of the addresses that it knows (`Grip`).
-/
import BackoffStack.Proofs.Treiber.Memory
import Mathlib.Data.List.Nodup

namespace BackoffStack

variable {α : Type}

namespace Memory

/-! ## Addresses -/

/-- What is at an address. -/
inductive Spot where
  | free
  /-- The node of a push that has not gone through. -/
  | own (t : Nat)
  /-- A node on the chain. -/
  | linked
  /-- A node that a pop has taken off, and still has to hand over. -/
  | taken (t : Nat)
  /-- A node that the epoch keeps since then. -/
  | waiting (since : Nat)

/-- The epoch does not free a node there before a pin from time `p` is given back. -/
def Spot.Kept (p : Nat) : Spot → Prop
  | free => False
  | own _ => False
  | linked => True
  | taken _ => True
  | waiting since => p < since

/-- What an attempt has to do with a node. -/
inductive Grip where
  | own
  | seen
  | taken

/-- The node at an address can be what an attempt takes it for. -/
def Grip.Fits (t : Nat) (pin? : Option Nat) (s : Spot) : Grip → Prop
  | own => s = .own t
  | seen => ∃ p, pin? = some p ∧ s.Kept p
  | taken => s = .taken t

end Memory

open Memory

/-- The node that an attempt has to do with. -/
def Attempt.Point.grip? : Attempt.Point α → Option (Address × Grip)
  | load a => some (a, .own)
  | link a _ => some (a, .own)
  | push a _ => some (a, .own)
  | lost a => some (a, .own)
  | pin => none
  | look => none
  | follow a => some (a, .seen)
  | pop a _ => some (a, .seen)
  | read a => some (a, .taken)
  | retire a _ => some (a, .taken)
  | unpin _ => none

/-- The node that an attempt knows to be linked to another one. -/
def Attempt.Point.link? : Attempt.Point α → Option (Address × Option Address)
  | push a seen => some (a, seen)
  | pop a next => some (a, next)
  | _ => none

/-- The value that an attempt has got. -/
def Attempt.Point.value? : Attempt.Point α → Option α
  | retire _ v => some v
  | unpin (.popped v) => some v
  | _ => none

/-- The node that the next access of a pop touches: it reads the next address or the value, or it hands
the node over. -/
def Attempt.Point.touches? : Attempt.Point α → Option Address
  | follow a => some a
  | read a => some a
  | retire a _ => some a
  | _ => none

/-- Whether an attempt is pinned. -/
def Attempt.Point.pinned : Attempt.Point α → Bool
  | look => true
  | follow _ => true
  | pop _ _ => true
  | read _ => true
  | retire _ _ => true
  | unpin _ => true
  | _ => false

namespace Memory

variable {m : Memory α} {nodes nodes' : Address → Option (Link α)} {now now' made : Nat}
  {freed : List Nat} {chain chain' : List (Address × Cell α)} {spot spot' : Address → Spot} {t u : Nat}
  {c d : Attempt α} {a b : Address} {s : Spot} {attempts : Flights (Attempt α)}

/-- What an attempt relies on. -/
structure Allows (nodes : Address → Option (Link α)) (now : Nat) (spot : Address → Spot) (t : Nat)
    (c : Attempt α) : Prop where
  grip : ∀ a g, c.point.grip? = some (a, g) →
    g.Fits t c.pin? (spot a) ∧ ∃ l, nodes a = some l ∧ c.cell? = some l.cell
  link : ∀ a next, c.point.link? = some (a, next) → ∃ l, nodes a = some l ∧ l.next = next
  value : ∀ v, c.point.value? = some v → ∃ cell, c.cell? = some cell ∧ cell.value = v
  pinned : c.point.pinned = true → ∃ p, c.pin? = some p
  past : ∀ p, c.pin? = some p → p < now

/-- Nodes are told apart by their numbers, and those that lie somewhere have not been freed. -/
structure Numbered (nodes : Address → Option (Link α)) (made : Nat) (freed : List Nat) : Prop where
  known : ∀ a l, nodes a = some l → l.cell.node < made ∧ l.cell.node ∉ freed
  apart : ∀ a b l k, nodes a = some l → nodes b = some k → l.cell.node = k.cell.node → a = b
  gone : ∀ n ∈ freed, n < made

/-- Memory in order: the chain, the conditions of all addresses, and all attempts. -/
structure Inv (m : Memory α) (chain : List (Address × Cell α)) (spot : Address → Spot) : Prop where
  chained : Chained m.nodes m.top chain
  once : (chain.map (·.1)).Nodup
  linked : ∀ a, a ∈ chain.map (·.1) ↔ spot a = .linked
  there : ∀ a, spot a ≠ .free → ∃ l, m.nodes a = some l
  kept : ∀ w ∈ m.waiting, spot w.address = .waiting w.since
  apart : (m.waiting.map (·.address)).Nodup
  allows : ∀ t c, m.attempts.find? t = some c → Allows m.nodes m.now spot t c
  numbered : Numbered m.nodes m.made m.freed

/-- Whether the next access of an attempt swings the top over. -/
def Swings (m : Memory α) (c : Attempt α) : Prop :=
  match c.point with
  | .push _ seen => m.top = seen
  | .pop seen _ => m.top = some seen
  | _ => False

/-- What an event does to the chain. -/
inductive Acts (m : Memory α) : List (Address × Cell α) → Event α → List (Address × Cell α) → Prop
  /-- A push swings the top over, and its node comes onto the chain as it is now. -/
  | push {t c a cell chain} (attempt : m.attempts.find? t = some c) (point : c.point = .push a m.top)
      (about : c.cell? = some cell) : Acts m chain (.step t) ((a, cell) :: chain)
  /-- A pop swings the top over, and takes off the node that it has found; what it has read before is the
  address of the node below. -/
  | pop {t c a cell chain} (attempt : m.attempts.find? t = some c)
      (point : c.point = .pop a (chain.head?.map (·.1))) (top : m.top = some a)
      (about : c.cell? = some cell) : Acts m ((a, cell) :: chain) (.step t) chain
  /-- No other event moves the top. -/
  | rest {chain e} (still : ∀ t c, e = .step t → m.attempts.find? t = some c → ¬ m.Swings c) :
      Acts m chain e chain

theorem Acts.still (hc : m.attempts.find? t = some c) (hs : ¬ m.Swings c) :
    m.Acts chain (.step t) chain := by
  refine .rest fun u d he hd => ?_
  cases he
  rwa [← Option.some.inj (hc.symm.trans hd)]

/-! ## The chain -/

theorem Chained.congr {p : Option Address} (h : Chained nodes p chain)
    (hn : ∀ a ∈ chain.map (·.1), nodes' a = nodes a) : Chained nodes' p chain := by
  induction chain generalizing p with
  | nil => exact h
  | cons node rest ih =>
    obtain ⟨a, cell⟩ := node
    obtain ⟨rfl, next, ha, h⟩ := h
    exact ⟨rfl, next, (hn a (List.mem_cons_self ..)).trans ha,
      ih h fun b hb => hn b (List.mem_cons_of_mem _ hb)⟩

/-- The chain is determined by memory. -/
theorem Chained.unique {p : Option Address} (h : Chained nodes p chain)
    (h' : Chained nodes p chain') : chain = chain' := by
  induction chain generalizing p chain' with
  | nil =>
    obtain rfl : p = none := h
    cases chain' with
    | nil => rfl
    | cons node rest => cases h'.1
  | cons node rest ih =>
    obtain ⟨a, cell⟩ := node
    obtain ⟨rfl, next, ha, h⟩ := h
    cases chain' with
    | nil => cases h'
    | cons node' rest' =>
      obtain ⟨a', cell'⟩ := node'
      obtain ⟨he, next', ha', h'⟩ := h'
      obtain rfl := Option.some.inj he
      cases ha.symm.trans ha'
      rw [ih h h']

theorem Chained.eq_head? {p : Option Address} (h : Chained nodes p chain) :
    p = chain.head?.map (·.1) := by
  cases chain with
  | nil => exact h
  | cons node rest => exact h.1

theorem Chained.exists_cons (h : Chained nodes (some a) chain) : ∃ cell rest next,
    chain = (a, cell) :: rest ∧ nodes a = some ⟨cell, next⟩ ∧ Chained nodes next rest := by
  cases chain with
  | nil => cases h
  | cons node rest =>
    obtain ⟨b, cell⟩ := node
    obtain ⟨htop, next, hnode, hrest⟩ := h
    obtain rfl := Option.some.inj htop
    exact ⟨cell, rest, next, rfl, hnode, hrest⟩

/-! ## What attempts rely on -/

theorem grip?_of_link? {p : Attempt.Point α} {next : Option Address}
    (h : p.link? = some (a, next)) : ∃ g, p.grip? = some (a, g) := by
  cases p with
  | push b seen =>
    cases h
    exact ⟨_, rfl⟩
  | pop b seen =>
    cases h
    exact ⟨_, rfl⟩
  | _ => cases h

theorem grip?_of_touches? {p : Attempt.Point α} (h : p.touches? = some a) :
    ∃ g, p.grip? = some (a, g) := by
  cases p with
  | follow b =>
    cases h
    exact ⟨_, rfl⟩
  | read b =>
    cases h
    exact ⟨_, rfl⟩
  | retire b v =>
    cases h
    exact ⟨_, rfl⟩
  | _ => cases h

namespace Allows

theorem of_no_grip (hg : c.point.grip? = none)
    (hv : ∀ v, c.point.value? = some v → ∃ cell, c.cell? = some cell ∧ cell.value = v)
    (hp : c.point.pinned = true → ∃ p, c.pin? = some p) (hpast : ∀ p, c.pin? = some p → p < now) :
    Allows nodes now spot t c where
  grip a g h := by
    rw [hg] at h
    cases h
  link a next h := by
    obtain ⟨g, h⟩ := grip?_of_link? h
    rw [hg] at h
    cases h
  value := hv
  pinned := hp
  past := hpast

/-- An attempt sees nothing of a change at one address with which it has nothing to do. -/
theorem frame (h : Allows nodes now spot t c) (hnow : now ≤ now')
    (hn : ∀ b, b ≠ a → nodes' b = nodes b)
    (ha : ∀ g : Grip, g.Fits t c.pin? (spot a) → g.Fits t c.pin? s ∧ nodes' a = nodes a) :
    Allows nodes' now' (Function.update spot a s) t c := by
  have hnode : ∀ b g, c.point.grip? = some (b, g) → nodes' b = nodes b := by
    intro b g hg
    by_cases hb : b = a
    · subst hb
      exact (ha g (h.grip b g hg).1).2
    · exact hn b hb
  refine ⟨fun b g hg => ?_, fun b next hl => ?_, h.value, h.pinned,
    fun p hp => Nat.lt_of_lt_of_le (h.past p hp) hnow⟩
  · obtain ⟨hfit, l, hl, hcell⟩ := h.grip b g hg
    refine ⟨?_, l, (hnode b g hg).trans hl, hcell⟩
    by_cases hb : b = a
    · subst hb
      rw [Function.update_self]
      exact (ha g hfit).1
    · rwa [Function.update_of_ne hb]
  · obtain ⟨g, hg⟩ := grip?_of_link? hl
    rw [hnode b g hg]
    exact h.link b next hl

theorem later (h : Allows nodes now spot t c) (hnow : now ≤ now') : Allows nodes now' spot t c :=
  ⟨h.grip, h.link, h.value, h.pinned, fun p hp => Nat.lt_of_lt_of_le (h.past p hp) hnow⟩

theorem goto (h : Allows nodes now spot t c) {p : Attempt.Point α}
    (hg : ∀ a g, p.grip? = some (a, g) → c.point.grip? = some (a, g))
    (hl : ∀ a next, p.link? = some (a, next) → ∃ l, nodes a = some l ∧ l.next = next)
    (hv : ∀ v, p.value? = some v → ∃ cell, c.cell? = some cell ∧ cell.value = v)
    (hp : p.pinned = true → c.point.pinned = true) : Allows nodes now spot t { c with point := p } :=
  ⟨fun a g hag => h.grip a g (hg a g hag), hl, hv, fun hpin => h.pinned (hp hpin), h.past⟩

theorem same (h : Allows nodes now spot t c) {p : Attempt.Point α} (hg : p.grip? = c.point.grip?)
    (hl : p.link? = none) (hv : p.value? = none) (hp : p.pinned = c.point.pinned) :
    Allows nodes now spot t { c with point := p } :=
  h.goto (fun a g hag => hg ▸ hag) (fun a next hn => by rw [hl] at hn; cases hn)
    (fun v hn => by rw [hv] at hn; cases hn) fun hpin => hp ▸ hpin

/-- An attempt gets ready to answer, and has to do with no node any more. -/
theorem unpin (h : Allows nodes now spot t c) (hp : c.point.pinned = true) (hnow : now ≤ now')
    {answer : TryPop α} (hv : ∀ v, (Attempt.Point.unpin answer).value? = some v →
      ∃ cell, c.cell? = some cell ∧ cell.value = v) :
    Allows nodes' now' spot' t { c with point := .unpin answer } :=
  .of_no_grip rfl hv (fun _ => h.pinned hp) fun p hpin => Nat.lt_of_lt_of_le (h.past p hpin) hnow

end Allows

/-- All attempts find what they rely on, also after one of them has gone on, -/
theorem allows_insert (hc : Allows nodes now spot t c)
    (hrest : ∀ u d, u ≠ t → attempts.find? u = some d → Allows nodes now spot u d) :
    ∀ u d, (attempts.insert t c).find? u = some d → Allows nodes now spot u d := by
  intro u d hd
  rw [Flights.find?_insert] at hd
  split at hd
  · next hu =>
    cases hd
    exact hu ▸ hc
  · next hu => exact hrest u d hu hd

/-- or is over. -/
theorem allows_erase
    (hrest : ∀ u d, u ≠ t → attempts.find? u = some d → Allows nodes now spot u d) :
    ∀ u d, (attempts.erase t).find? u = some d → Allows nodes now spot u d := by
  intro u d hd
  rw [Flights.find?_erase] at hd
  split at hd
  · cases hd
  · next hu => exact hrest u d hu hd

/-- Nobody but its owner has to do with a node that was never on the chain. -/
theorem Grip.not_fits_own {g : Grip} {pin? : Option Nat} (hu : u ≠ t) : ¬ g.Fits u pin? (.own t) := by
  cases g with
  | own =>
    intro h
    cases h
    exact hu rfl
  | seen =>
    rintro ⟨p, -, h⟩
    exact h
  | taken =>
    intro h
    cases h

theorem Grip.not_fits_free {g : Grip} {pin? : Option Nat} : ¬ g.Fits t pin? .free := by
  cases g with
  | own =>
    intro h
    cases h
  | seen =>
    rintro ⟨p, -, h⟩
    exact h
  | taken =>
    intro h
    cases h

/-! ## Numbers -/

namespace Numbered

theorem relink (h : Numbered nodes made freed) {l : Link α} (hl : nodes a = some l)
    (next : Option Address) : Numbered (Function.update nodes a (some { l with next })) made freed := by
  have hback : ∀ b k, Function.update nodes a (some { l with next }) b = some k →
      ∃ k', nodes b = some k' ∧ k'.cell = k.cell := by
    intro b k hk
    by_cases hb : b = a
    · subst hb
      rw [Function.update_self, Option.some.injEq] at hk
      exact ⟨l, hl, by rw [← hk]⟩
    · rw [Function.update_of_ne hb] at hk
      exact ⟨k, hk, rfl⟩
  refine ⟨fun b k hk => ?_, fun b d k k' hk hk' he => ?_, h.gone⟩
  · obtain ⟨k', hk', hcell⟩ := hback b k hk
    exact hcell ▸ h.known b k' hk'
  · obtain ⟨j, hj, hcell⟩ := hback b k hk
    obtain ⟨j', hj', hcell'⟩ := hback d k' hk'
    exact h.apart b d j j' hj hj' (by rw [hcell, hcell', he])

theorem create (h : Numbered nodes made freed) (a : Address) (value : α) :
    Numbered (Function.update nodes a (some ⟨.make made value, none⟩)) (made + 1) freed := by
  have hcases : ∀ b k, Function.update nodes a (some ⟨.make made value, none⟩) b = some k →
      b = a ∧ k.cell.node = made ∨ nodes b = some k ∧ k.cell.node < made := by
    intro b k hk
    by_cases hb : b = a
    · subst hb
      rw [Function.update_self, Option.some.injEq] at hk
      exact .inl ⟨rfl, hk ▸ rfl⟩
    · rw [Function.update_of_ne hb] at hk
      exact .inr ⟨hk, (h.known b k hk).1⟩
  refine ⟨fun b k hk => ?_, fun b d k k' hk hk' he => ?_, fun n hn => Nat.lt_succ_of_lt (h.gone n hn)⟩
  · rcases hcases b k hk with ⟨-, hnode⟩ | ⟨hk, hlt⟩
    · rw [hnode]
      exact ⟨Nat.lt_succ_self _, fun hm => Nat.lt_irrefl _ (h.gone _ hm)⟩
    · exact ⟨Nat.lt_succ_of_lt hlt, (h.known b k hk).2⟩
  · rcases hcases b k hk with ⟨rfl, hnode⟩ | ⟨hk, hlt⟩ <;>
      rcases hcases d k' hk' with ⟨rfl, hnode'⟩ | ⟨hk', hlt'⟩
    · rfl
    · omega
    · omega
    · exact h.apart b d k k' hk hk' he

theorem release (h : Numbered nodes made freed) {l : Link α} (hl : nodes a = some l) :
    Numbered (Function.update nodes a none) made (l.cell.node :: freed) := by
  have hold : ∀ b k, Function.update nodes a none b = some k → b ≠ a ∧ nodes b = some k := by
    intro b k hk
    by_cases hb : b = a
    · subst hb
      rw [Function.update_self] at hk
      cases hk
    · rw [Function.update_of_ne hb] at hk
      exact ⟨hb, hk⟩
  refine ⟨fun b k hk => ?_, fun b d k k' hk hk' he => ?_, fun n hn => ?_⟩
  · obtain ⟨hb, hk⟩ := hold b k hk
    obtain ⟨hlt, hnot⟩ := h.known b k hk
    refine ⟨hlt, ?_⟩
    rw [List.mem_cons, not_or]
    exact ⟨fun he => hb (h.apart b a k l hk hl he), hnot⟩
  · exact h.apart b d k k' (hold b k hk).2 (hold d k' hk').2 he
  · rcases List.mem_cons.1 hn with rfl | hn
    · exact (h.known a l hl).1
    · exact h.gone n hn

end Numbered

namespace Inv

/-! ## One address -/

theorem not_mem (hi : m.Inv chain spot) (ha : spot a ≠ .linked) : a ∉ chain.map (·.1) :=
  fun h => ha ((hi.linked a).1 h)

/-- Nothing lies at an address only if it is free. -/
theorem eq_free (hi : m.Inv chain spot) (ha : m.nodes a = none) : spot a = .free := by
  by_contra hne
  obtain ⟨l, hl⟩ := hi.there a hne
  cases ha.symm.trans hl

theorem there_update (hi : m.Inv chain spot) (hn : ∀ b, b ≠ a → nodes' b = m.nodes b)
    (ha : s ≠ .free → ∃ l, nodes' a = some l) :
    ∀ b, Function.update spot a s b ≠ .free → ∃ l, nodes' b = some l := by
  intro b hb
  by_cases hba : b = a
  · subst hba
    exact ha (by simpa using hb)
  · obtain ⟨l, hl⟩ := hi.there b (by rwa [Function.update_of_ne hba] at hb)
    exact ⟨l, (hn b hba).trans hl⟩

theorem kept_update (hi : m.Inv chain spot) (ha : ∀ since, spot a ≠ .waiting since) :
    ∀ w ∈ m.waiting, Function.update spot a s w.address = .waiting w.since := by
  intro w hw
  have hne : w.address ≠ a := fun he => ha w.since (he ▸ hi.kept w hw)
  rw [Function.update_of_ne hne]
  exact hi.kept w hw

/-- What changes is one address that is not on the chain. -/
theorem aside {m' : Memory α} (hi : m.Inv chain spot) (htop : m'.top = m.top)
    (hn : ∀ b, b ≠ a → m'.nodes b = m.nodes b) (ha : spot a ≠ .linked) (hs : s ≠ .linked)
    (hthere : s ≠ .free → ∃ l, m'.nodes a = some l)
    (hkept : ∀ w ∈ m'.waiting, Function.update spot a s w.address = .waiting w.since)
    (hapart : (m'.waiting.map (·.address)).Nodup)
    (hallows : ∀ u d, m'.attempts.find? u = some d →
      Allows m'.nodes m'.now (Function.update spot a s) u d)
    (hnumbered : Numbered m'.nodes m'.made m'.freed) : m'.Inv chain (Function.update spot a s) where
  chained := by
    rw [htop]
    refine hi.chained.congr fun b hb => hn b ?_
    intro he
    exact hi.not_mem ha (he ▸ hb)
  once := hi.once
  linked b := by
    by_cases hb : b = a
    · subst hb
      simpa [hs] using hi.not_mem ha
    · rw [hi.linked, Function.update_of_ne hb]
  there := hi.there_update hn hthere
  kept := hkept
  apart := hapart
  allows := hallows
  numbered := hnumbered

/-! ## Steps of an attempt -/

theorem goOn (hi : m.Inv chain spot) {p : Attempt.Point α}
    (hc : Allows m.nodes m.now spot t { c with point := p }) : (m.goOn t c p).Inv chain spot :=
  ⟨hi.chained, hi.once, hi.linked, hi.there, hi.kept, hi.apart,
    allows_insert hc fun u d _ => hi.allows u d, hi.numbered⟩

theorem link (hi : m.Inv chain spot) (hc : m.attempts.find? t = some c) {seen : Option Address}
    (hp : c.point = .link a seen) :
    (m.access t c).Inv chain (Function.update spot a (.own t)) := by
  have hallows := hi.allows t c hc
  obtain ⟨hown, l, hl, hcell⟩ := hallows.grip a .own (by rw [hp]; rfl)
  have hown : spot a = .own t := hown
  have hnodes : ∀ b, b ≠ a → Function.update m.nodes a (some { l with next := seen }) b = m.nodes b :=
    fun b hb => Function.update_of_ne hb ..
  have hself : Function.update m.nodes a (some { l with next := seen }) a =
    some { l with next := seen } := Function.update_self ..
  simp only [access, hp, hl]
  refine hi.aside rfl hnodes (by simp [hown]) (by simp) (fun _ => ⟨_, hself⟩)
    (hi.kept_update (by simp [hown])) hi.apart (allows_insert ?_ fun u d hu hd => ?_)
    (hi.numbered.relink hl seen)
  · refine ⟨fun b g hg => ?_, fun b next hn => ?_, fun v hv => (by cases hv), fun hpin => (by cases hpin),
      hallows.past⟩
    · cases hg
      exact ⟨Function.update_self .., _, hself, hcell⟩
    · cases hn
      exact ⟨_, hself, rfl⟩
  · refine (hi.allows u d hd).frame (Nat.le_refl _) hnodes fun g hg => ?_
    rw [hown] at hg
    exact absurd hg (Grip.not_fits_own hu)

theorem push (hi : m.Inv chain spot) (hc : m.attempts.find? t = some c)
    (hp : c.point = .push a m.top) : ∃ cell, c.cell? = some cell ∧
      (m.access t c).Inv ((a, cell) :: chain) (Function.update spot a .linked) := by
  have hallows := hi.allows t c hc
  obtain ⟨hown, l, hl, hcell⟩ := hallows.grip a .own (by rw [hp]; rfl)
  have hown : spot a = .own t := hown
  obtain ⟨l', hl', hnext⟩ := hallows.link a m.top (by rw [hp]; rfl)
  obtain rfl := Option.some.inj (hl.symm.trans hl')
  have hnot := hi.not_mem (a := a) (by rw [hown]; simp)
  refine ⟨l.cell, hcell, ?_⟩
  simp only [access, hp, if_true]
  refine ⟨⟨rfl, m.top, hnext ▸ hl, hi.chained⟩, List.nodup_cons.2 ⟨hnot, hi.once⟩, fun b => ?_,
    hi.there_update (fun _ _ => rfl) (fun _ => ⟨l, hl⟩), hi.kept_update (by simp [hown]), hi.apart,
    allows_erase fun u d hu hd => ?_, hi.numbered⟩
  · rw [List.map_cons, List.mem_cons, hi.linked]
    by_cases hb : b = a
    · simp [hb]
    · simp [hb]
  · refine (hi.allows u d hd).frame (Nat.le_refl _) (fun b _ => rfl) fun g hg => ?_
    rw [hown] at hg
    exact absurd hg (Grip.not_fits_own hu)

theorem pop (hi : m.Inv chain spot) (hc : m.attempts.find? t = some c) {next : Option Address}
    (hp : c.point = .pop a next) (htop : m.top = some a) : ∃ cell rest, c.cell? = some cell ∧
      chain = (a, cell) :: rest ∧ next = rest.head?.map (·.1) ∧
      (m.access t c).Inv rest (Function.update spot a (.taken t)) := by
  have hallows := hi.allows t c hc
  obtain ⟨-, l, hl, hcell⟩ := hallows.grip a .seen (by rw [hp]; rfl)
  obtain ⟨l', hl', rfl⟩ := hallows.link a next (by rw [hp]; rfl)
  obtain rfl := Option.some.inj (hl.symm.trans hl')
  obtain ⟨cell, rest, next, rfl, hnode, hrest⟩ := (htop ▸ hi.chained).exists_cons
  cases hl.symm.trans hnode
  obtain ⟨hnot, honce⟩ := List.nodup_cons.1 hi.once
  refine ⟨cell, rest, hcell, rfl, hrest.eq_head?, ?_⟩
  simp only [access, hp, htop, if_true]
  have hlinked : spot a = .linked := (hi.linked a).1 (List.mem_cons_self ..)
  refine ⟨hrest, honce, fun b => ?_, hi.there_update (fun _ _ => rfl) (fun _ => ⟨_, hl⟩),
    hi.kept_update (by simp [hlinked]), hi.apart, allows_insert ?_ fun u d hu hd => ?_, hi.numbered⟩
  · by_cases hb : b = a
    · subst hb
      simpa using hnot
    · have hother := hi.linked b
      simp only [List.map_cons, List.mem_cons, hb, false_or] at hother
      rw [hother, Function.update_of_ne hb]
  · refine ⟨fun b g hg => ?_, fun b next hn => (by cases hn), fun v hv => (by cases hv),
      fun _ => hallows.pinned (by rw [hp]; rfl), hallows.past⟩
    cases hg
    exact ⟨Function.update_self .., _, hl, hcell⟩
  · -- others that have found the node on the top have pins from before it is handed over
    refine (hi.allows u d hd).frame (Nat.le_refl _) (fun b _ => rfl) fun g hg => ⟨?_, rfl⟩
    rw [hlinked] at hg
    cases g with
    | own => cases hg
    | seen =>
      obtain ⟨p, hpin, -⟩ := hg
      exact ⟨p, hpin, trivial⟩
    | taken => cases hg

/-- A pop hands its node to the epoch. All pins that are held have been taken before. -/
theorem retire (hi : m.Inv chain spot) (hc : m.attempts.find? t = some c) {v : α}
    (hp : c.point = .retire a v) :
    (m.access t c).Inv chain (Function.update spot a (.waiting m.now)) := by
  have hallows := hi.allows t c hc
  obtain ⟨htaken, l, hl, hcell⟩ := hallows.grip a .taken (by rw [hp]; rfl)
  have htaken : spot a = .taken t := htaken
  have hnew : a ∉ m.waiting.map (·.address) := by
    intro hw
    obtain ⟨w, hwm, rfl⟩ := List.mem_map.1 hw
    cases htaken.symm.trans (hi.kept w hwm)
  simp only [access, hp]
  refine hi.aside rfl (fun _ _ => rfl) (by simp [htaken]) (by simp) (fun _ => ⟨l, hl⟩) (fun w hw => ?_)
    (List.nodup_cons.2 ⟨hnew, hi.apart⟩) (allows_insert ?_ fun u d hu hd => ?_) hi.numbered
  · rcases List.mem_cons.1 hw with rfl | hw
    · exact Function.update_self ..
    · exact hi.kept_update (by simp [htaken]) w hw
  · refine hallows.unpin (by rw [hp]; rfl) (Nat.le_succ _) fun w hw => ?_
    cases hw
    exact hallows.value v (by rw [hp]; rfl)
  · refine (hi.allows u d hd).frame (Nat.le_succ _) (fun b _ => rfl) fun g hg => ⟨?_, rfl⟩
    rw [htaken] at hg
    cases g with
    | own => cases hg
    | seen =>
      obtain ⟨p, hpin, -⟩ := hg
      exact ⟨p, hpin, (hi.allows u d hd).past p hpin⟩
    | taken =>
      cases hg
      exact absurd rfl hu

theorem pin (hi : m.Inv chain spot) (hp : c.point = .pin) :
    (m.access t c).Inv chain spot := by
  simp only [access, hp]
  refine ⟨hi.chained, hi.once, hi.linked, hi.there, hi.kept, hi.apart,
    allows_insert ?_ fun u d _ hd => (hi.allows u d hd).later (Nat.le_succ _), hi.numbered⟩
  refine .of_no_grip rfl (fun v hv => by cases hv) (fun _ => ⟨_, rfl⟩) fun p hpin => ?_
  cases hpin
  exact Nat.lt_succ_self _

theorem look (hi : m.Inv chain spot) (hp : c.point = .look) (hc : m.attempts.find? t = some c)
    (htop : m.top = some a) : (m.access t c).Inv chain spot := by
  have hallows := hi.allows t c hc
  obtain ⟨cell, rest, next, rfl, hnode, -⟩ := (htop ▸ hi.chained).exists_cons
  obtain ⟨p, hpin⟩ := hallows.pinned (by rw [hp]; rfl)
  have hlinked := (hi.linked a).1 (List.mem_cons_self ..)
  simp only [access, hp, htop]
  refine ⟨hi.chained, hi.once, hi.linked, hi.there, hi.kept, hi.apart,
    allows_insert ?_ fun u d _ hd => hi.allows u d hd, hi.numbered⟩
  refine ⟨fun b g hg => ?_, fun b next hn => (by cases hn), fun v hv => (by cases hv),
    fun _ => ⟨p, hpin⟩, hallows.past⟩
  cases hg
  exact ⟨⟨p, hpin, by rw [hlinked]; trivial⟩, _, hnode, by rw [hnode]; rfl⟩

/-- Each access keeps memory in order, and moves the top in one of the two ways if it does. -/
theorem access (hi : m.Inv chain spot) (hc : m.attempts.find? t = some c) :
    ∃ chain' spot', (m.access t c).Inv chain' spot' ∧ m.Acts chain (.step t) chain' := by
  have hallows := hi.allows t c hc
  -- the top moves where a push or a pop finds it as it was, and nowhere else
  have hstays : (m.access t c).Inv chain spot → ¬ m.Swings c →
      ∃ chain' spot', (m.access t c).Inv chain' spot' ∧ m.Acts chain (.step t) chain' :=
    fun h hs => ⟨chain, spot, h, .still hc hs⟩
  cases hp : c.point with
  | load a =>
    refine hstays ?_ (by simp [Swings, hp])
    simp only [Memory.access, hp]
    exact hi.goOn (hallows.same (by rw [hp]; rfl) rfl rfl (by rw [hp]; rfl))
  | link a seen => exact ⟨_, _, hi.link hc hp, .still hc (by simp [Swings, hp])⟩
  | push a seen =>
    by_cases htop : m.top = seen
    · subst htop
      obtain ⟨cell, hcell, h⟩ := hi.push hc hp
      exact ⟨_, _, h, .push hc hp hcell⟩
    · refine hstays ?_ (by simp [Swings, hp, htop])
      simp only [Memory.access, hp, if_neg htop]
      exact hi.goOn (hallows.same (by rw [hp]; rfl) rfl rfl (by rw [hp]; rfl))
  | lost a =>
    refine hstays ?_ (by simp [Swings, hp])
    simpa only [Memory.access, hp] using hi
  | pin => exact hstays (hi.pin hp) (by simp [Swings, hp])
  | look =>
    refine hstays ?_ (by simp [Swings, hp])
    cases htop : m.top with
    | none =>
      simp only [Memory.access, hp, htop]
      exact hi.goOn (hallows.unpin (by rw [hp]; rfl) (Nat.le_refl _) fun v hv => by cases hv)
    | some a => exact hi.look hp hc htop
  | follow a =>
    refine hstays ?_ (by simp [Swings, hp])
    obtain ⟨-, l, hl, -⟩ := hallows.grip a .seen (by rw [hp]; rfl)
    simp only [Memory.access, hp, hl]
    refine hi.goOn (hallows.goto (fun b g hg => ?_) (fun b next hn => ?_) (fun v hv => by cases hv)
      fun _ => by rw [hp]; rfl)
    · rw [hp]
      exact hg
    · cases hn
      exact ⟨l, hl, rfl⟩
  | pop a next =>
    by_cases htop : m.top = some a
    · obtain ⟨cell, rest, hcell, rfl, rfl, h⟩ := hi.pop hc hp htop
      exact ⟨_, _, h, .pop hc hp htop hcell⟩
    · refine hstays ?_ (by simp [Swings, hp, htop])
      simp only [Memory.access, hp, if_neg htop]
      exact hi.goOn (hallows.unpin (by rw [hp]; rfl) (Nat.le_refl _) fun v hv => by cases hv)
  | read a =>
    refine hstays ?_ (by simp [Swings, hp])
    obtain ⟨-, l, hl, hcell⟩ := hallows.grip a .taken (by rw [hp]; rfl)
    simp only [Memory.access, hp, hl]
    refine hi.goOn (hallows.goto (fun b g hg => ?_) (fun b next hn => by cases hn) (fun v hv => ?_)
      fun _ => by rw [hp]; rfl)
    · rw [hp]
      exact hg
    · cases hv
      exact ⟨l.cell, hcell, rfl⟩
  | retire a v => exact ⟨_, _, hi.retire hc hp, .still hc (by simp [Swings, hp])⟩
  | unpin answer =>
    refine hstays ?_ (by simp [Swings, hp])
    simp only [Memory.access, hp]
    exact ⟨hi.chained, hi.once, hi.linked, hi.there, hi.kept, hi.apart,
      allows_erase fun u d _ => hi.allows u d, hi.numbered⟩

/-! ## Other events -/

theorem create (hi : m.Inv chain spot) (ha : m.nodes a = none) (t : Nat) (value : α) :
    ({ m.put a (some { cell := .make m.made value }) with
      made := m.made + 1
      attempts := m.attempts.insert t
        { point := .load a, cell? := some (.make m.made value) } } : Memory α).Inv chain
      (Function.update spot a (.own t)) := by
  have hfree := hi.eq_free ha
  have hnodes : ∀ b, b ≠ a → Function.update m.nodes a (some ⟨.make m.made value, none⟩) b = m.nodes b :=
    fun b hb => Function.update_of_ne hb ..
  have hself : Function.update m.nodes a (some ⟨.make m.made value, none⟩) a =
    some ⟨.make m.made value, none⟩ := Function.update_self ..
  refine hi.aside rfl hnodes (by simp [hfree]) (by simp) (fun _ => ⟨_, hself⟩)
    (hi.kept_update (by simp [hfree])) hi.apart (allows_insert ?_ fun u d _ hd => ?_)
    (hi.numbered.create a value)
  · refine ⟨fun b g hg => ?_, fun b next hn => (by cases hn), fun v hv => (by cases hv),
      fun hpin => (by cases hpin), fun p hpin => (by cases hpin)⟩
    cases hg
    exact ⟨Function.update_self .., _, hself, rfl⟩
  · refine (hi.allows u d hd).frame (Nat.le_refl _) hnodes fun g hg => ?_
    rw [hfree] at hg
    exact absurd hg Grip.not_fits_free

/-- A node is freed that is not on the chain, and that nobody has to do with any more. -/
theorem release (hi : m.Inv chain spot) (hfree : spot a ≠ .free) (hlinked : spot a ≠ .linked)
    (waiting : List Retired) (hw : ∀ w ∈ waiting, w ∈ m.waiting ∧ w.address ≠ a)
    (hapart : (waiting.map (·.address)).Nodup)
    (hall : ∀ u d, attempts.find? u = some d → m.attempts.find? u = some d ∧
      ∀ g : Grip, ¬ g.Fits u d.pin? (spot a)) :
    ({ m.release a with waiting, attempts } : Memory α).Inv chain (Function.update spot a .free) := by
  obtain ⟨l, hl⟩ := hi.there a hfree
  have hnodes : ∀ b, b ≠ a → Function.update m.nodes a none b = m.nodes b :=
    fun b hb => Function.update_of_ne hb ..
  have hnumbered : Numbered (Function.update m.nodes a none) m.made
      (((m.nodes a).map (·.cell.node)).toList ++ m.freed) := by
    rw [hl]
    exact hi.numbered.release hl
  refine hi.aside rfl hnodes hlinked (by simp) (fun h => absurd rfl h) (fun w hwm => ?_) hapart
    (fun u d hd => ?_) hnumbered
  · obtain ⟨hwm, hne⟩ := hw w hwm
    rw [Function.update_of_ne hne]
    exact hi.kept w hwm
  · obtain ⟨hd, hno⟩ := hall u d hd
    exact (hi.allows u d hd).frame (Nat.le_refl _) hnodes fun g hg => absurd hg (hno g)

theorem mem_pins (hd : m.attempts.find? u = some d) {p : Nat} (hp : d.pin? = some p) : p ∈ m.pins := by
  obtain ⟨before, rest, he, -⟩ := List.lookup_eq_some_iff.1 hd
  exact List.mem_filterMap.2 ⟨(u, d), by rw [he]; simp, hp⟩

/-- A node that the epoch may free is not what any attempt takes it for. -/
theorem not_fits_waiting (hi : m.Inv chain spot) {w : Retired} (hw : w ∈ m.waiting)
    (hpins : ∀ p ∈ m.pins, w.since ≤ p) (hd : m.attempts.find? u = some d) (g : Grip) :
    ¬ g.Fits u d.pin? (spot w.address) := by
  rw [hi.kept w hw]
  cases g with
  | own =>
    intro h
    cases h
  | seen =>
    rintro ⟨p, hp, hlt⟩
    exact absurd (hpins p (mem_pins hd hp)) (Nat.not_le.2 hlt)
  | taken =>
    intro h
    cases h

theorem begin (hi : m.Inv chain spot) (t : Nat) :
    ({ m with attempts := m.attempts.insert t { point := .pin } } : Memory α).Inv chain spot := by
  refine ⟨hi.chained, hi.once, hi.linked, hi.there, hi.kept, hi.apart,
    allows_insert ?_ fun u d _ => hi.allows u d, hi.numbered⟩
  exact .of_no_grip rfl (fun v hv => by cases hv) (fun hp => by cases hp) fun p hp => by cases hp

theorem discard (hi : m.Inv chain spot) (hc : m.attempts.find? t = some c) (hp : c.point = .lost a) :
    ({ m.release a with attempts := m.attempts.erase t } : Memory α).Inv chain
      (Function.update spot a .free) := by
  obtain ⟨hown, -⟩ := (hi.allows t c hc).grip a .own (by rw [hp]; rfl)
  have hown : spot a = .own t := hown
  refine hi.release (by simp [hown]) (by simp [hown]) m.waiting (fun w hw => ⟨hw, fun he => ?_⟩) hi.apart
    fun u d hd => ?_
  · subst he
    cases hown.symm.trans (hi.kept w hw)
  · rw [Flights.find?_erase] at hd
    split at hd
    · cases hd
    · next hu => exact ⟨hd, fun g => hown ▸ Grip.not_fits_own hu⟩

theorem free (hi : m.Inv chain spot) {w : Retired} (hw : w ∈ m.waiting)
    (hpins : ∀ p ∈ m.pins, w.since ≤ p) :
    ({ m.release w.address with
      waiting := m.waiting.filter (·.address ≠ w.address) } : Memory α).Inv chain
      (Function.update spot w.address .free) := by
  have hkept := hi.kept w hw
  refine hi.release (by simp [hkept]) (by simp [hkept]) _ (fun v hv => ?_)
    (hi.apart.sublist (List.filter_sublist.map _)) fun u d hd => ⟨hd, hi.not_fits_waiting hw hpins hd⟩
  obtain ⟨hv, hne⟩ := List.mem_filter.1 hv
  exact ⟨hv, by simpa using hne⟩

theorem happen (hi : m.Inv chain spot) (e : Event α) :
    ∃ chain' spot', (m.happen e).Inv chain' spot' ∧ m.Acts chain e chain' := by
  have hstays : ∀ {m' : Memory α} {spot'}, (∀ t, e ≠ .step t) → m'.Inv chain spot' →
      ∃ chain' spot', m'.Inv chain' spot' ∧ m.Acts chain e chain' :=
    fun he h => ⟨chain, _, h, .rest fun t c ht => absurd ht (he t)⟩
  cases e with
  | step t =>
    cases hc : m.attempts.find? t with
    | none =>
      simp only [Memory.happen, hc]
      exact ⟨chain, spot, hi, .rest fun u d he hd => by cases he; cases hc.symm.trans hd⟩
    | some c =>
      simp only [Memory.happen, hc]
      exact hi.access hc
  | push t value a =>
    simp only [Memory.happen]
    split
    · next hg => exact hstays (by simp) (hi.create hg.2 t value)
    · exact hstays (by simp) hi
  | pop t =>
    simp only [Memory.happen]
    split
    · exact hstays (by simp) (hi.begin t)
    · exact hstays (by simp) hi
  | retry t =>
    simp only [Memory.happen]
    split
    · next c hc =>
      split
      · next a hp =>
        refine hstays (by simp) (hi.goOn ((hi.allows t c hc).same ?_ rfl rfl ?_)) <;> rw [hp] <;> rfl
      · exact hstays (by simp) hi
    · exact hstays (by simp) hi
  | discard t =>
    simp only [Memory.happen]
    split
    · next c hc =>
      split
      · next a hp => exact hstays (by simp) (hi.discard hc hp)
      · exact hstays (by simp) hi
    · exact hstays (by simp) hi
  | free a =>
    simp only [Memory.happen]
    split
    · next w hw =>
      split
      · next hpins =>
        obtain rfl : w.address = a := by simpa using List.find?_some hw
        exact hstays (by simp) (hi.free (List.mem_of_find?_eq_some hw) hpins)
      · exact hstays (by simp) hi
    · exact hstays (by simp) hi

theorem new : ({} : Memory α).Inv [] fun _ => .free where
  chained := rfl
  once := List.nodup_nil
  linked a := by simp
  there a h := absurd rfl h
  kept w hw := by cases hw
  apart := List.nodup_nil
  allows t c hc := by cases hc
  numbered := ⟨fun a l hl => (by cases hl), fun a b l k hl => (by cases hl), fun n hn => (by cases hn)⟩

theorem foldl (hi : m.Inv chain spot) (events : List (Event α)) :
    ∃ chain' spot', (events.foldl Memory.happen m).Inv chain' spot' := by
  induction events generalizing m chain spot with
  | nil => exact ⟨chain, spot, hi⟩
  | cons e events ih =>
    obtain ⟨chain', spot', hi', -⟩ := hi.happen e
    exact ih hi'

end Inv

/-! ## Safety -/

/-- The chain from the top, and what attempts hold on to. -/
structure Sound (m : Memory α) (chain : List (Address × Cell α)) : Prop where
  /-- From the top, nodes are linked through these addresses, and that is the end: -/
  chained : Chained m.nodes m.top chain
  /-- none of them comes twice. -/
  once : (chain.map (·.1)).Nodup
  /-- A pop that is about to touch a node finds the one that it has found on the top, which has not been
  freed since. -/
  touches : ∀ t c a, m.attempts.find? t = some c → c.point.touches? = some a →
    ∃ l, m.nodes a = some l ∧ c.cell? = some l.cell ∧ l.cell.node ∉ m.freed
  /-- A pop that has got a value has got that of the node that it has taken off. -/
  values : ∀ t c v, m.attempts.find? t = some c → c.point.value? = some v →
    ∃ cell, c.cell? = some cell ∧ cell.value = v

theorem Inv.sound (hi : m.Inv chain spot) : m.Sound chain where
  chained := hi.chained
  once := hi.once
  touches t c a hc ht := by
    obtain ⟨g, hg⟩ := grip?_of_touches? ht
    obtain ⟨-, l, hl, hcell⟩ := (hi.allows t c hc).grip a g hg
    exact ⟨l, hl, hcell, (hi.numbered.known a l hl).2⟩
  values t c v hc := (hi.allows t c hc).value v

/-- Whatever attempts do and wherever new nodes lie: the chain has an end, no pop touches a node that was
freed, and each attempt that goes through pushes its node onto the chain or takes off the top, in one
step. -/
theorem swings_are_atomic (events : List (Event α)) :
    ∃ chain, (run events).Sound chain ∧ ∀ e, ∃ chain',
      ((run events).happen e).Sound chain' ∧ (run events).Acts chain e chain' := by
  obtain ⟨chain, spot, hi⟩ := Inv.new.foldl events
  refine ⟨chain, hi.sound, fun e => ?_⟩
  obtain ⟨chain', spot', hi', hacts⟩ := hi.happen e
  exact ⟨chain', hi'.sound, hacts⟩

/-- A push goes through although by then it is another node that lies at the address it has found. -/
example :
    let m : Memory Char := run [.push 0 'x' 4, .step 0, .step 0, .step 0, .push 1 'y' 8, .step 1, .step 1,
      .pop 2, .step 2, .step 2, .step 2, .step 2, .step 2, .step 2, .step 2, .free 4,
      .push 0 'z' 4, .step 0, .step 0, .step 0, .step 1]
    Chained m.nodes m.top [(8, .make 1 'y'), (4, .make 2 'z')] :=
  ⟨rfl, _, rfl, rfl, _, rfl, rfl⟩

end Memory

end BackoffStack
