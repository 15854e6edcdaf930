/-
Who owns the envelopes of a slot.

An owner is a call, or the slot itself once it carries a joiner's offer. What an owner owns is an
offer at an address: a value lies in an envelope of its own, and a pop's marker is the null address,
which any number of owners may share. Whoever opens an envelope gets what its owner put there, and
takes it away from nobody else (`Keeps.takeOut`).
-/
import BackoffStack.Exchange.Call
import Mathlib.Data.List.Perm.Subperm

namespace BackoffStack

variable {α : Type}

/-! ## Words -/

namespace Word

theorem compose_waiting_ne_empty {a : Address} (h : 4 ∣ a) : compose a .waiting ≠ empty := by
  rw [compose_eq a _ h]
  simp [empty, SlotState.code]

theorem compose_busy_ne_empty {a : Address} (h : 4 ∣ a) : compose a .busy ≠ empty := by
  rw [compose_eq a _ h]
  simp [empty, SlotState.code]

theorem compose_busy_ne_waiting {a b : Address} (ha : 4 ∣ a) (hb : 4 ∣ b) :
    compose a .busy ≠ compose b .waiting := by
  intro h
  have hs := congrArg state h
  rw [state_compose a _ ha, state_compose b _ hb] at hs
  cases hs

theorem compose_inj {a b : Address} {s : SlotState} (ha : 4 ∣ a) (hb : 4 ∣ b)
    (h : compose a s = compose b s) : a = b := by
  rw [← address_compose a s ha, h, address_compose b s hb]

end Word

/-! ## Offers in envelopes -/

namespace Slot

/-- The offer lies at the address: a value in an envelope, a marker at the null address. -/
def Holds (s : Slot α) (a : Address) : Option α → Prop
  | none => a = nullAddress
  | some v => a ≠ nullAddress ∧ 4 ∣ a ∧ (a, v) ∈ s.envelopes

/-- What is owned, and by whom: the slot itself is the owner without a number. -/
abbrev Ownership (α : Type) := Option Nat → Address → Option α → Prop

/-- Every owner finds its offer where it is said to lie, and no two owners share an envelope. -/
structure Keeps (s : Slot α) (owns : Ownership α) : Prop where
  nodup : (s.envelopes.map (·.1)).Nodup
  holds : ∀ k a o, owns k a o → s.Holds a o
  apart : ∀ k l a o o', owns k a o → owns l a o' → k ≠ l → a = nullAddress

theorem Holds.dvd {s : Slot α} {a : Address} {o : Option α} (h : s.Holds a o) : 4 ∣ a := by
  cases o with
  | none => exact h ▸ Nat.dvd_zero 4
  | some v => exact h.2.1

theorem Holds.beq_null {s : Slot α} {a : Address} {o : Option α} (h : s.Holds a o) :
    (a == nullAddress) = !o.isSome := by
  cases o with
  | none => exact beq_iff_eq.2 h
  | some v => exact beq_eq_false_iff_ne.2 h.1

theorem Holds.setWord {s : Slot α} {a : Address} {o : Option α} (h : s.Holds a o) (w : Word) :
    (s.setWord w).Holds a o := by
  cases o with
  | none => exact h
  | some v => exact h

theorem Keeps.setWord {s : Slot α} {owns : Ownership α} (h : s.Keeps owns) (w : Word) :
    (s.setWord w).Keeps owns where
  nodup := h.nodup
  holds k a o ho := (h.holds k a o ho).setWord w
  apart := h.apart

/-- Owners may be renamed, and may give up what they own. -/
theorem Keeps.rename {s : Slot α} {owns owns' : Ownership α} (h : s.Keeps owns)
    (f : Option Nat → Option Nat) (hf : ∀ k a o, owns' k a o → owns (f k) a o)
    (inj : ∀ k l a o o', owns' k a o → owns' l a o' → f k = f l → k = l) : s.Keeps owns' where
  nodup := h.nodup
  holds k a o ho := h.holds _ a o (hf k a o ho)
  apart k l a o o' hk hl hne :=
    h.apart (f k) (f l) a o o' (hf k a o hk) (hf l a o' hl) fun e => hne (inj k l a o o' hk hl e)

theorem Keeps.mono {s : Slot α} {owns owns' : Ownership α} (h : s.Keeps owns)
    (hf : ∀ k a o, owns' k a o → owns k a o) : s.Keeps owns' :=
  h.rename id hf fun _ _ _ _ _ _ _ e => e

/-! ## Opening an envelope -/

@[simp] theorem word_takeOut (s : Slot α) (a : Address) : (s.takeOut a).2.word = s.word := by
  unfold takeOut
  split <;> rfl

theorem lookup_envelopes {s : Slot α} {a : Address} {v : α} (hn : (s.envelopes.map (·.1)).Nodup)
    (hv : (a, v) ∈ s.envelopes) : s.envelopes.lookup a = some v := by
  generalize s.envelopes = es at hn hv
  induction es with
  | nil => simp at hv
  | cons e es ih =>
    obtain ⟨b, w⟩ := e
    simp only [List.map_cons, List.nodup_cons] at hn
    rcases List.mem_cons.1 hv with he | hv
    · obtain ⟨rfl, rfl⟩ := Prod.mk.inj he
      simp
    · have hne : a ≠ b := fun e => hn.1 (e ▸ List.mem_map_of_mem (f := (·.1)) hv)
      simp only [List.lookup_cons, beq_eq_false_iff_ne.2 hne]
      exact ih hn.2 hv

theorem Holds.fst_takeOut {s : Slot α} {a : Address} {o : Option α}
    (hn : (s.envelopes.map (·.1)).Nodup) (h : s.Holds a o) : (s.takeOut a).1 = o := by
  cases o with
  | none => simp [takeOut, show a = nullAddress from h]
  | some v => simpa [takeOut, h.1] using lookup_envelopes hn h.2.2

theorem Holds.takeOut {s : Slot α} {a b : Address} {o : Option α} (h : s.Holds b o)
    (hab : b = a → b = nullAddress) : (s.takeOut a).2.Holds b o := by
  cases o with
  | none => exact h
  | some v =>
    obtain ⟨h0, h4, hm⟩ := h
    refine ⟨h0, h4, ?_⟩
    unfold Slot.takeOut
    split
    · exact hm
    · exact List.mem_filter.2 ⟨hm, by simpa using fun e => h0 (hab e)⟩

/-- After an owner's envelope was opened, all other owners still have theirs. -/
theorem Keeps.takeOut {s : Slot α} {owns : Ownership α} {k : Option Nat} {a : Address}
    {o : Option α} (h : s.Keeps owns) (hk : owns k a o) :
    (s.takeOut a).2.Keeps fun l b o' => l ≠ k ∧ owns l b o' where
  nodup := by
    unfold Slot.takeOut
    split
    · exact h.nodup
    · exact h.nodup.sublist (List.filter_sublist.map _)
  holds l b o' hl := by
    refine (h.holds l b o' hl.2).takeOut ?_
    rintro rfl
    exact h.apart l k b o' o hl.2 hk hl.1
  apart l m b o₁ o₂ hl hm := h.apart l m b o₁ o₂ hl.2 hm.2

/-- Exactly the opened offer leaves the envelopes. -/
theorem Holds.values_takeOut {s : Slot α} {a : Address} {o : Option α}
    (hn : (s.envelopes.map (·.1)).Nodup) (h : s.Holds a o) :
    (s.envelopes.map (·.2)).Perm (o.toList ++ (s.takeOut a).2.envelopes.map (·.2)) := by
  cases o with
  | none => simp [Slot.takeOut, show a = nullAddress from h]
  | some v =>
    obtain ⟨h0, -, hm⟩ := h
    simp only [Slot.takeOut, if_neg h0, Option.toList_some, List.singleton_append]
    generalize s.envelopes = es at hn hm
    induction es with
    | nil => simp at hm
    | cons e es ih =>
      obtain ⟨b, w⟩ := e
      simp only [List.map_cons, List.nodup_cons] at hn
      rcases List.mem_cons.1 hm with he | hm
      · obtain ⟨rfl, rfl⟩ := Prod.mk.inj he
        have hes : es.filter (fun e => decide (e.1 ≠ a)) = es := by
          refine List.filter_eq_self.2 fun e hmem => decide_eq_true fun heq => hn.1 ?_
          exact heq ▸ List.mem_map_of_mem (f := (·.1)) hmem
        rw [List.filter_cons_of_neg (by simp), hes]
        exact List.Perm.refl _
      · have hne : b ≠ a := fun e => hn.1 (e ▸ List.mem_map_of_mem (f := (·.1)) hm)
        simp only [List.map_cons, List.filter_cons, hne, ne_eq, not_false_eq_true, decide_true,
          if_true]
        exact ((ih hn.2 hm).cons w).trans (List.Perm.swap v w _)

/-! ## Filling an envelope -/

/-- An address at which a new envelope may lie. Envelopes that take up memory lie apart. Those of values
without a size would all lie at one address; when one is there already, a second one is left out. -/
def Usable (s : Slot α) (a : Address) : Prop :=
  a ≠ nullAddress ∧ alignment ∣ a ∧ s.occupied a = false

instance (s : Slot α) (a : Address) : Decidable (s.Usable a) :=
  inferInstanceAs (Decidable (_ ∧ _ ∧ _))

theorem Usable.not_mem {s : Slot α} {a : Address} (h : s.Usable a) (v : α) :
    (a, v) ∉ s.envelopes := by
  intro hm
  have ho := h.2.2
  simp only [occupied, List.any_eq_false, beq_iff_eq] at ho
  exact ho _ hm rfl

theorem Usable.dvd {s : Slot α} {a : Address} (h : s.Usable a) : 4 ∣ a :=
  Nat.dvd_trans (by decide) h.2.1

@[simp] theorem word_enclose (s : Slot α) (a : Address) (o : Option α) :
    (s.enclose a o).2.word = s.word := by
  cases o <;> rfl

theorem values_enclose (s : Slot α) (a : Address) (o : Option α) :
    (s.enclose a o).2.envelopes.map (·.2) = o.toList ++ s.envelopes.map (·.2) := by
  cases o <;> rfl

/-- A new owner finds its offer in its envelope, and no other owner loses any. -/
theorem Keeps.enclose {s : Slot α} {owns : Ownership α} {a : Address} (h : s.Keeps owns)
    (ha : s.Usable a) (k : Option Nat) (o : Option α) (hk : ∀ b o', ¬ owns k b o') :
    (s.enclose a o).2.Keeps fun l b o' =>
      owns l b o' ∨ (l = k ∧ b = (s.enclose a o).1 ∧ o' = o) := by
  cases o with
  | none =>
    refine ⟨h.nodup, ?_, ?_⟩
    · rintro l b o' (hl | ⟨rfl, rfl, rfl⟩)
      · exact h.holds l b o' hl
      · rfl
    · rintro l m b o₁ o₂ (hl | ⟨rfl, rfl, rfl⟩) (hm | ⟨rfl, hb, rfl⟩) hne
      · exact h.apart l m b o₁ o₂ hl hm hne
      · exact hb
      · rfl
      · exact absurd rfl hne
  | some v =>
    have old : ∀ l b o', owns l b o' → b = a → False := by
      rintro l b (- | w) hl rfl
      · exact ha.1 (h.holds l b none hl)
      · exact ha.not_mem w (h.holds l b (some w) hl).2.2
    refine ⟨?_, ?_, ?_⟩
    · simp only [Slot.enclose, List.map_cons, List.nodup_cons, List.mem_map]
      refine ⟨?_, h.nodup⟩
      rintro ⟨⟨b, w⟩, hm, rfl⟩
      exact ha.not_mem w hm
    · rintro l b o' (hl | ⟨rfl, rfl, rfl⟩)
      · cases o' with
        | none => exact h.holds l b none hl
        | some w =>
          obtain ⟨h0, h4, hm⟩ := h.holds l b (some w) hl
          exact ⟨h0, h4, List.mem_cons_of_mem _ hm⟩
      · exact ⟨ha.1, ha.dvd, List.mem_cons_self ..⟩
    · rintro l m b o₁ o₂ (hl | ⟨rfl, rfl, rfl⟩) (hm | ⟨rfl, hb, rfl⟩) hne
      · exact h.apart l m b o₁ o₂ hl hm hne
      · exact (old l b o₁ hl hb).elim
      · exact (old m _ o₂ hm rfl).elim
      · exact absurd rfl hne

/-- The lowest free address is one at which a new envelope may lie: of one more candidates than there
are envelopes, one is free. -/
theorem usable_freeAddress (s : Slot α) : s.Usable s.freeAddress := by
  let candidates := (List.range (s.envelopes.length + 1)).map fun k => alignment * (k + 1)
  have hnodup : candidates.Nodup := by
    refine List.Pairwise.map _ (fun i j hne hij => hne ?_) List.nodup_range
    simp only [alignment] at hij
    omega
  cases hf : candidates.find? fun a => !s.occupied a with
  | none =>
    -- all candidates would be among the addresses in use, which are fewer
    have hsub : candidates ⊆ s.envelopes.map (·.1) := by
      intro a ha
      have ho : s.occupied a = true := by simpa using List.find?_eq_none.1 hf a ha
      obtain ⟨e, he, hea⟩ := List.any_eq_true.1 ho
      exact List.mem_map.2 ⟨e, he, by simpa using hea⟩
    have hle := (hnodup.subperm hsub).length_le
    simp only [candidates, List.length_map, List.length_range] at hle
    omega
  | some a =>
    have hfree : s.freeAddress = a := by
      show (candidates.find? fun a => !s.occupied a).getD alignment = a
      rw [hf]; rfl
    obtain ⟨k, -, hk⟩ := List.mem_map.1 (List.mem_of_find?_eq_some hf)
    rw [hfree]
    refine ⟨?_, ⟨k + 1, hk.symm⟩, by simpa using List.find?_some hf⟩
    rw [← hk]
    simp [alignment, nullAddress]

end Slot

end BackoffStack
