/-
No handle is handed out twice.

Whoever takes its version back counts on in its store, and a handle carries the count at which it was handed
out. From when a version is taken back to when the count has gone up nobody else gets to the store, so that
the next acquisition there finds a count that no handle carries yet. Whatever all the others do meanwhile,
and however often an acquisition has to begin anew: handles of one store differ until its count comes round
(`Crowd.keepsHandles`).
-/
import BackoffStack.Proofs.Crowd.Safety
import Mathlib.Data.List.Nodup

namespace BackoffStack

variable {ι : Type}

/-- Handles of the store of an id, the earliest first, when the store has counted to `n`. The counts that
they carry go up; and the store has counted on since the last of them, unless that is still out. -/
def Handed (id : Nat) (handles : List Handle) (n : Nat) (out : Prop) : Prop :=
  ∃ counts : List Nat, handles = counts.map (fun k => ⟨id, UInt32.ofNat k⟩) ∧
    counts.Pairwise (· < ·) ∧ (∀ k ∈ counts, k ≤ n) ∧ (¬ out → ∀ k ∈ counts, k < n)

namespace Handed

variable {id n : Nat} {handles : List Handle} {out out' : Prop}

theorem nil : Handed id [] n out := ⟨[], rfl, .nil, nofun, fun _ => nofun⟩

theorem mono (h : Handed id handles n out) (hout : out → out') : Handed id handles n out' := by
  obtain ⟨counts, hmap, hup, hle, hlt⟩ := h
  exact ⟨counts, hmap, hup, hle, fun hnot => hlt fun ho => hnot (hout ho)⟩

/-- While none is out, the next handle carries a new count. -/
theorem hand (h : Handed id handles n out) (hout : ¬ out) (hout' : out') :
    Handed id (handles ++ [⟨id, UInt32.ofNat n⟩]) n out' := by
  obtain ⟨counts, rfl, hup, hle, hlt⟩ := h
  refine ⟨counts ++ [n], by rw [List.map_append, List.map_singleton], ?_, fun k hk => ?_,
    fun hnot => absurd hout' hnot⟩
  · refine List.pairwise_append.2 ⟨hup, List.pairwise_singleton .., fun k hk m hm => ?_⟩
    rw [List.mem_singleton.1 hm]
    exact hlt hout k hk
  · rcases List.mem_append.1 hk with hk | hk
    · exact hle k hk
    · exact (List.mem_singleton.1 hk).le

/-- When the store counts on, all handles carry a lower count. -/
theorem count (h : Handed id handles n out) : Handed id handles (n + 1) out' := by
  obtain ⟨counts, hmap, hup, hle, -⟩ := h
  exact ⟨counts, hmap, hup, fun k hk => (hle k hk).trans (Nat.le_succ n),
    fun _ k hk => Nat.lt_succ_of_le (hle k hk)⟩

/-- Handles differ as long as the count has not come round. -/
theorem nodup (h : Handed id handles n out) (hn : n < UInt32.size) : handles.Nodup := by
  obtain ⟨counts, rfl, hup, hle, -⟩ := h
  refine List.Nodup.map_on (fun k hk m hm heq => ?_) (hup.imp Nat.ne_of_lt)
  have hsame : UInt32.ofNat k = UInt32.ofNat m := congrArg Handle.sequence heq
  have hk' := (hle k hk).trans_lt hn
  have hm' := (hle m hm).trans_lt hn
  rw [← UInt32.toNat_ofNat_of_lt' hk', ← UInt32.toNat_ofNat_of_lt' hm', hsame]

end Handed

theorem toNat_add_one_sub (q : UInt32) : (q + 1 - q).toNat = 1 := by
  have h : q + 1 - q = 1 := by grind
  rw [h]
  rfl

/-- The handle that an acquisition comes to. -/
def Mark.handle? : Mark ι → Option Handle
  | acquired h _ => some h
  | _ => none

/-- The handles of the store of an id that were handed out, the earliest first. -/
def handlesOf (id : Nat) (marks : List (Mark ι)) : List Handle :=
  (marks.filterMap Mark.handle?).filter (·.tid = id)

theorem handlesOf_append (id : Nat) (marks marks' : List (Mark ι)) :
    handlesOf id (marks ++ marks') = handlesOf id marks ++ handlesOf id marks' := by
  rw [handlesOf, List.filterMap_append, List.filter_append]
  rfl

namespace Access

variable {a : Actor} {s : Shared ι} {g : Ledger} {ids : List Nat} {access : Access ι}

/-- Whether the store counts on. -/
def counts : Access ι → Bool
  | advance _ => true
  | _ => false

/-- What an access leaves published in its actor's store, if it changes that. -/
def publishes? : Access ι → Option (Option Nat)
  | publish version => some (some version)
  | retract | withdraw _ => some none
  | _ => none

/-- What an access makes of the version and the count of a store: it changes those of its actor only. -/
structure Sets (access : Access ι) (a : Actor) (s s' : Shared ι) (id : Nat) : Prop where
  published : (s'.store id).published =
    if id = a.id then access.publishes?.getD (s.store id).published else (s.store id).published
  sequence : (s'.store id).sequence =
    if id = a.id ∧ access.counts = true then (s.store id).sequence + 1 else (s.store id).sequence

theorem sets_perform (access : Access ι) (a : Actor) (s : Shared ι) (id : Nat) :
    access.Sets a s (access.perform a s).shared id := by
  have hmodify : ∀ j (f : Store ι → Store ι),
      (∀ t, (f t).published = t.published ∧ (f t).sequence = t.sequence) →
        ((s.modify j f).store id).published = (s.store id).published ∧
          ((s.modify j f).store id).sequence = (s.store id).sequence := by
    intro j f hf
    exact s.relates_modify j id (fun t t' => t'.published = t.published ∧ t'.sequence = t.sequence)
      (fun _ => ⟨rfl, rfl⟩) hf
  have hkeep : ((access.perform a s).shared.store id).published = (s.store id).published ∧
      ((access.perform a s).shared.store id).sequence = (s.store id).sequence →
      access.publishes? = none → access.counts = false →
        access.Sets a s (access.perform a s).shared id := by
    rintro ⟨hpublished, hsequence⟩ hnone hcounts
    refine ⟨?_, ?_⟩
    · rw [hpublished, hnone, Option.getD_none, ite_self]
    · rw [hsequence, hcounts, if_neg (by simp)]
  cases access with
  | publish | retract | withdraw =>
    refine ⟨?_, ?_⟩ <;> simp only [perform, Shared.store_modify, publishes?, counts, Option.getD_some]
    · split <;> rfl
    · split
      · next h => simp [h]
      · simp
  | advance again =>
    refine ⟨?_, ?_⟩ <;> simp only [perform, Shared.store_modify, publishes?, counts, and_true]
    · split
      · next h => rw [h, Option.getD_none]
      · rfl
    · split
      · next h => rw [h]
      · rfl
  | lookUp e =>
    have hsame := s.store_reach a.id id
    exact hkeep ⟨congrArg Store.published hsame, congrArg Store.sequence hsame⟩ rfl rfl
  | link | claim | enable | swapRetired | takeList | push | countOwn | uncount | forgetRetired =>
    exact hkeep (hmodify _ _ fun _ => ⟨rfl, rfl⟩) rfl rfl
  | lockList | lockExit | confirm =>
    refine hkeep ?_ rfl rfl
    simp only [perform]
    split <;> exact ⟨rfl, rfl⟩
  | _ => exact hkeep ⟨rfl, rfl⟩ rfl rfl

/-- Whether a version is published that no handle is out for yet. -/
def unsettled : Access ι → Bool
  | confirm _ | retract => true
  | _ => false

theorem owns_of_unsettled (h : access.unsettled = true) (hok : access.Ok s g ids a) : s.Owns a := by
  cases access with
  | confirm version => exact hok.1
  | retract => exact hok.1
  | _ => cases h

theorem owns_of_counts (h : access.counts = true) (hok : access.Ok s g ids a) : s.Owns a := by
  cases access with
  | advance again => cases again <;> exact hok.1
  | _ => cases h

/-- Whether a handle may be handed out or taken back. -/
def deals : Access ι → Bool
  | confirm _ | withdraw _ => true
  | _ => false

/-- Whatever is neither confirmed nor withdrawn leaves the ledger's handles as they are. -/
theorem held_perform (h : access.deals = false) (a : Actor) (s : Shared ι) (g : Ledger) :
    (g.enterAll (access.perform a s).mark?.toList).held = g.held ∧
      (access.perform a s).mark?.toList.filterMap Mark.handle? = [] := by
  cases access with
  | confirm | withdraw => cases h
  | lockList e =>
    simp only [perform]
    split <;> exact ⟨rfl, rfl⟩
  | lockExit =>
    simp only [perform]
    split <;> exact ⟨rfl, rfl⟩
  | _ => exact ⟨rfl, rfl⟩

end Access

namespace Crowd

variable {c c' : Crowd ι} {g g' : Ledger} {ids : List Nat} {id n : Nat} {handles : List Handle}
  {a : Actor} {access : Access ι} {rest : List (Access ι)}

/-- How often the store of an id counts on in a run. -/
def spent (c : Crowd ι) (id : Nat) : List (Event ι) → Nat
  | [] => 0
  | e :: events =>
    (((c.happen e).1.shared.store id).sequence - (c.shared.store id).sequence).toNat +
      (c.happen e).1.spent id events

/-- Whether somebody who acts under an id is about to make an access of some sort. -/
def About (c : Crowd ι) (id : Nat) (sort : Access ι → Bool) : Prop :=
  ∃ a access rest, a.id = id ∧ c.todo a = access :: rest ∧ sort access = true

/-- The handles of a store carry what it had counted to when they were handed out. -/
structure Numbered (c : Crowd ι) (g : Ledger) (id : Nat) (handles : List Handle) (n : Nat) :
    Prop where
  sequence : (c.shared.store id).sequence = UInt32.ofNat n
  handed : Handed id handles n ((g.held id).isSome = true ∨ c.About id Access.counts)

/-- They still do in `c'`, when these marks have been shown. -/
def Renumbered (c : Crowd ι) (g : Ledger) (id : Nat) (handles : List Handle) (n : Nat) (c' : Crowd ι)
    (marks : List (Mark ι)) : Prop :=
  c'.Numbered (g.enterAll marks) id (handles ++ handlesOf id marks)
    (n + ((c'.shared.store id).sequence - (c.shared.store id).sequence).toNat)

/-- An actor has made an access; the rest is left to do. -/
def made (c : Crowd ι) (a : Actor) (access : Access ι) (rest : List (Access ι)) : Crowd ι :=
  ({ c with shared := (access.perform a c.shared).shared } : Crowd ι).assign a
    ((access.perform a c.shared).next ++ rest)

theorem Numbered.aside (h : c.Numbered g id handles n) {marks : List (Mark ι)}
    (hsequence : (c'.shared.store id).sequence = (c.shared.store id).sequence)
    (hheld : (g.enterAll marks).held id = g.held id)
    (habout : c.About id Access.counts → c'.About id Access.counts)
    (hmarks : handlesOf id marks = []) : c.Renumbered g id handles n c' marks := by
  unfold Renumbered
  rw [hsequence, UInt32.sub_self, hmarks, List.append_nil]
  refine ⟨hsequence.trans h.sequence, h.handed.mono ?_⟩
  rw [hheld]
  exact Or.imp_right habout

theorem About.made {sort : Access ι → Bool} (h : c.About id sort) (htodo : c.todo a = access :: rest)
    (hother : id = a.id → sort access = false) : (c.made a access rest).About id sort := by
  obtain ⟨b, next, rest', hid, hb, hsort⟩ := h
  have hne : b ≠ a := by
    rintro rfl
    cases hb.symm.trans htodo
    exact absurd (hother hid.symm) (by simp [hsort])
  exact ⟨b, next, rest', hid, (Function.update_of_ne hne ..).trans hb, hsort⟩

theorem About.assign {sort : Access ι → Bool} (h : c.About id sort) (htodo : c.todo a = [])
    (accesses : List (Access ι)) : (c.assign a accesses).About id sort := by
  obtain ⟨b, next, rest', hid, hb, hsort⟩ := h
  have hne : b ≠ a := by
    rintro rfl
    cases hb.symm.trans htodo
  exact ⟨b, next, rest', hid, (Function.update_of_ne hne ..).trans hb, hsort⟩

/-- Nobody else is about to change what is published in a store, or its count, while its owner is at
something else. -/
theorem Inv.not_about (hi : c.Inv g ids) (htodo : c.todo a = access :: rest)
    (howns : c.shared.Owns a) {sort : Access ι → Bool} (haccess : sort access = false)
    (hsort : ∀ b next, sort next = true → next.Ok c.shared g ids b → c.shared.Owns b) :
    ¬ c.About a.id sort := by
  rintro ⟨b, next, rest', hid, hb, hnext⟩
  have hok := hi.ok b next (by rw [hb]; exact .head _)
  obtain rfl := Shared.eq_of_owns (hsort b next hnext hok) howns hid
  cases hb.symm.trans htodo
  exact absurd haccess (by simp [hnext])

/-- An actor that finds its version unchanged has a handle with the count of its own store. -/
theorem Inv.mark_confirm (hi : c.Inv g ids) {version : Nat}
    (htodo : c.todo a = .confirm version :: rest) (hv : version = c.shared.epoch.version) :
    ((Access.confirm version).perform a c.shared).mark? =
      some (.acquired ⟨a.id, (c.shared.store a.id).sequence⟩ version) := by
  obtain ⟨-, hen, -, -⟩ := hi.ok a (.confirm version) (by rw [htodo]; exact .head _)
  have howner : (c.shared.store a.id).owner = a.id := (hi.shared.enabled _ hen).2
  simp only [Access.perform, if_pos hv, Store.handle, howner]

namespace Numbered

theorem confirm (h : c.Numbered g id handles n) (hi : c.Inv g ids) {version : Nat}
    (htodo : c.todo a = .confirm version :: rest) :
    c.Renumbered g id handles n (c.made a (.confirm version) rest)
      ((Access.confirm version).perform a c.shared).mark?.toList := by
  obtain ⟨howns, -, -, hnone⟩ := hi.ok a (.confirm version) (by rw [htodo]; exact .head _)
  have hsequence := ((Access.confirm version).sets_perform a c.shared id).sequence
  rw [if_neg (by simp [Access.counts])] at hsequence
  have habout : c.About id Access.counts → (c.made a (.confirm version) rest).About id Access.counts :=
    fun hp => hp.made htodo fun _ => rfl
  by_cases hv : version = c.shared.epoch.version
  · rw [hi.mark_confirm htodo hv]
    by_cases hid : id = a.id
    · subst hid
      have hhanded : handlesOf a.id (some (Mark.acquired (ι := ι)
          ⟨a.id, (c.shared.store a.id).sequence⟩ version)).toList =
          [⟨a.id, UInt32.ofNat n⟩] := by simp [handlesOf, Mark.handle?, h.sequence]
      have hout : ¬ ((g.held a.id).isSome = true ∨ c.About a.id Access.counts) := by
        rw [hnone, not_or]
        exact ⟨by simp, hi.not_about htodo howns rfl fun _ _ => Access.owns_of_counts⟩
      have hheld : ((g.enterAll (some (Mark.acquired (ι := ι)
          ⟨a.id, (c.shared.store a.id).sequence⟩ version)).toList).held a.id).isSome = true := by
        simp [Ledger.enterAll, Ledger.enter]
      unfold Renumbered
      rw [show ((c.made a (.confirm version) rest).shared.store a.id).sequence = _ from hsequence,
        UInt32.sub_self, hhanded]
      exact ⟨hsequence.trans h.sequence, h.handed.hand hout (.inl hheld)⟩
    · refine h.aside hsequence ?_ habout ?_
      · exact Function.update_of_ne hid ..
      · simp [handlesOf, Mark.handle?, Ne.symm hid]
  · have hmark : ((Access.confirm version).perform a c.shared).mark? = none := by
      simp only [Access.perform, if_neg hv]
    rw [hmark]
    exact h.aside hsequence rfl habout rfl

theorem withdraw (h : c.Numbered g id handles n) (hi : c.Inv g ids) {k : Handle}
    (htodo : c.todo a = .withdraw k :: rest) :
    c.Renumbered g id handles n (c.made a (.withdraw k) rest)
      ((Access.withdraw k).perform a c.shared).mark?.toList := by
  obtain ⟨-, htid, -⟩ := hi.ok a (.withdraw k) (by rw [htodo]; exact .head _)
  have hsequence := ((Access.withdraw k).sets_perform a c.shared id).sequence
  rw [if_neg (by simp [Access.counts])] at hsequence
  by_cases hid : id = a.id
  · unfold Renumbered
    rw [show ((c.made a (.withdraw k) rest).shared.store id).sequence = _ from hsequence,
      UInt32.sub_self]
    have hnone : handlesOf id ((Access.withdraw k).perform a c.shared).mark?.toList = [] := rfl
    rw [hnone, List.append_nil]
    exact ⟨hsequence.trans h.sequence,
      h.handed.mono fun _ => .inr ⟨a, _, _, hid.symm, Function.update_self .., rfl⟩⟩
  · refine h.aside hsequence ?_ (fun hp => hp.made htodo fun _ => rfl) rfl
    exact Function.update_of_ne (htid ▸ hid) ..

theorem advance (h : c.Numbered g a.id handles n) {again : Bool} :
    c.Renumbered g a.id handles n (c.made a (.advance again) rest)
      ((Access.advance again).perform a c.shared).mark?.toList := by
  have hsequence := ((Access.advance again).sets_perform a c.shared a.id).sequence
  rw [if_pos ⟨rfl, rfl⟩] at hsequence
  unfold Renumbered
  rw [show ((c.made a (.advance again) rest).shared.store a.id).sequence = _ from hsequence,
    toNat_add_one_sub]
  refine ⟨hsequence.trans ?_, ?_⟩
  · rw [h.sequence, UInt32.ofNat_add]
    rfl
  · have hnone : handlesOf a.id ((Access.advance again).perform a c.shared).mark?.toList = [] := rfl
    rw [hnone, List.append_nil]
    exact h.handed.count

theorem step (h : c.Numbered g id handles n) (hi : c.Inv g ids)
    (htodo : c.todo a = access :: rest) :
    c.Renumbered g id handles n (c.made a access rest)
      (access.perform a c.shared).mark?.toList := by
  have hsequence := (access.sets_perform a c.shared id).sequence
  cases hdeals : access.deals with
  | true =>
    cases access with
    | confirm version => exact h.confirm hi htodo
    | withdraw k => exact h.withdraw hi htodo
    | _ => cases hdeals
  | false =>
    by_cases hcounts : id = a.id ∧ access.counts = true
    · obtain ⟨rfl, hcounts⟩ := hcounts
      cases access with
      | advance again => exact h.advance
      | _ => cases hcounts
    · rw [if_neg hcounts] at hsequence
      obtain ⟨hheld, hmarks⟩ := Access.held_perform hdeals a c.shared g
      refine h.aside hsequence (congrFun hheld id) (fun hp => hp.made htodo fun hid => ?_) ?_
      · exact Bool.eq_false_iff.2 fun hc => hcounts ⟨hid, hc⟩
      · rw [handlesOf, hmarks]
        rfl

theorem happen (h : c.Numbered g id handles n) (hi : c.Inv g ids) (e : Event ι) :
    c.Renumbered g id handles n (c.happen e).1 (c.happen e).2.toList := by
  have hsame : c.Renumbered g id handles n c [] := h.aside rfl rfl (fun hp => hp) rfl
  unfold Crowd.happen
  cases e with
  | start a errand =>
    dsimp only
    cases htodo : c.todo a with
    | nil =>
      refine h.aside rfl rfl ?_ rfl
      exact fun hp => hp.assign htodo _
    | cons access rest => exact hsame
  | step a =>
    dsimp only
    cases htodo : c.todo a with
    | nil => exact hsame
    | cons access rest => exact h.step hi htodo
  | leave a =>
    dsimp only
    cases c.todo a with
    | nil =>
      dsimp only
      split
      · exact h.aside rfl rfl (fun hp => hp) rfl
      · exact hsame
    | cons access rest => exact hsame
  | wall micros => exact h.aside rfl rfl (fun hp => hp) rfl

end Numbered

/-- Whatever is published in a store has a handle that is out, or its actor is about to see to it. -/
def Shown (c : Crowd ι) (g : Ledger) (id : Nat) : Prop :=
  (c.shared.store id).published.isSome = true →
    (g.held id).isSome = true ∨ c.About id Access.unsettled

namespace Shown

theorem aside (h : c.Shown g id)
    (hpublished : (c'.shared.store id).published = (c.shared.store id).published)
    (hheld : g'.held id = g.held id)
    (habout : c.About id Access.unsettled → c'.About id Access.unsettled) : c'.Shown g' id := by
  intro hp
  rw [hpublished] at hp
  rw [hheld]
  exact (h hp).imp_right habout

/-- An actor sees to what it has published, or leaves it as it is. -/
theorem step_own (h : c.Shown g a.id) (hi : c.Inv g ids) (htodo : c.todo a = access :: rest) :
    (c.made a access rest).Shown (g.enterAll (access.perform a c.shared).mark?.toList) a.id := by
  have hpublished : ((c.made a access rest).shared.store a.id).published =
      access.publishes?.getD (c.shared.store a.id).published := by
    have := (access.sets_perform a c.shared a.id).published
    rwa [if_pos rfl] at this
  have hnext : ∀ next, (access.perform a c.shared).next = [next] → next.unsettled = true →
      (c.made a access rest).About a.id Access.unsettled := by
    intro next hnext hunsettled
    refine ⟨a, next, rest, rfl, ?_, hunsettled⟩
    show Function.update c.todo a _ a = _
    rw [Function.update_self, hnext]
    rfl
  have hkept : access.publishes? = none → access.deals = false → access.unsettled = false →
      (c.made a access rest).Shown (g.enterAll (access.perform a c.shared).mark?.toList) a.id := by
    intro hnone hdeals hsettled
    refine h.aside ?_ (congrFun (Access.held_perform hdeals a c.shared g).1 a.id)
      fun hp => hp.made htodo fun _ => hsettled
    rw [hpublished, hnone, Option.getD_none]
  cases access with
  | publish version => exact fun _ => .inr (hnext (.confirm version) rfl rfl)
  | confirm version =>
    by_cases hv : version = c.shared.epoch.version
    · rw [hi.mark_confirm htodo hv]
      exact fun _ => .inl (by simp [Ledger.enterAll, Ledger.enter])
    · refine fun _ => .inr (hnext .retract ?_ rfl)
      simp only [Access.perform, if_neg hv]
  | retract | withdraw =>
    intro hp
    rw [hpublished] at hp
    cases hp
  | _ => exact hkept rfl rfl rfl

theorem step (h : c.Shown g id) (hi : c.Inv g ids) (htodo : c.todo a = access :: rest) :
    (c.made a access rest).Shown (g.enterAll (access.perform a c.shared).mark?.toList) id := by
  by_cases hid : id = a.id
  · subst hid
    exact h.step_own hi htodo
  · have hok := hi.ok a access (by rw [htodo]; exact .head _)
    obtain ⟨ids', hf⟩ := Access.fits hi.shared hok
    obtain ⟨hpublished, hheld⟩ := hf.onward.publication id (.inl hid)
    exact h.aside hpublished hheld fun hp => hp.made htodo fun h => absurd h hid

theorem happen (h : c.Shown g id) (hi : c.Inv g ids) (e : Event ι) :
    (c.happen e).1.Shown (g.enterAll (c.happen e).2.toList) id := by
  unfold Crowd.happen
  cases e with
  | start a errand =>
    dsimp only
    cases htodo : c.todo a with
    | nil => exact h.aside rfl rfl fun hp => hp.assign htodo _
    | cons access rest => exact h
  | step a =>
    dsimp only
    cases htodo : c.todo a with
    | nil => exact h
    | cons access rest => exact h.step hi htodo
  | leave a =>
    dsimp only
    cases c.todo a with
    | nil =>
      dsimp only
      split
      · exact h.aside rfl rfl fun hp => hp
      · exact h
    | cons access rest => exact h
  | wall micros => exact h.aside rfl rfl fun hp => hp

end Shown

theorem published_happen {e : Event ι} {version : Nat}
    (h : ((c.happen e).1.shared.store id).published = some version) :
    (c.shared.store id).published = some version ∨
      ∃ a rest, e = .step a ∧ a.id = id ∧ c.todo a = .publish version :: rest := by
  unfold Crowd.happen at h
  cases e with
  | start a errand =>
    dsimp only at h
    split at h <;> exact .inl h
  | step a =>
    dsimp only at h
    split at h
    · exact .inl h
    · next access rest htodo =>
      have hpublished := (access.sets_perform a c.shared id).published.symm.trans h
      split at hpublished
      · next hid =>
        cases access with
        | publish version' =>
          cases hpublished
          exact .inr ⟨a, rest, rfl, hid.symm, htodo⟩
        | retract | withdraw => cases hpublished
        | _ => exact .inl hpublished
      · exact .inl hpublished
  | leave a =>
    dsimp only at h
    split at h
    · split at h <;> exact .inl h
    · exact .inl h
  | wall micros => exact .inl h

/-! ## Runs -/

/-- All that a crowd has come to, and that its ledger tells, after a run. -/
structure Reaches (c : Crowd ι) (events : List (Event ι)) (g : Ledger) : Prop where
  inv : ∃ ids, (c.after events).Inv (g.enterAll (c.trace events)) ids
  shown : ∀ id, (c.after events).Shown (g.enterAll (c.trace events)) id
  numbered : ∀ id handles n, c.Numbered g id handles n →
    (c.after events).Numbered (g.enterAll (c.trace events)) id (handles ++ handlesOf id (c.trace events))
      (n + c.spent id events)

theorem Inv.reaches (hi : c.Inv g ids) (h : ∀ id, c.Shown g id) (events : List (Event ι)) :
    c.Reaches events g := by
  induction events generalizing c g ids with
  | nil =>
    refine ⟨⟨ids, hi⟩, h, fun id handles n hn => ?_⟩
    rw [trace, spent, handlesOf, List.filterMap_nil, List.filter_nil, List.append_nil]
    exact hn
  | cons e events ih =>
    obtain ⟨ids', -, hi'⟩ := hi.happen e
    obtain ⟨hinv, hshown, hnumbered⟩ := ih hi' fun id => (h id).happen hi e
    refine ⟨?_, ?_, fun id handles n hn => ?_⟩
    · rw [trace, Ledger.enterAll_append]
      exact hinv
    · rw [trace, Ledger.enterAll_append]
      exact hshown
    · rw [trace, spent, handlesOf_append, Ledger.enterAll_append, ← List.append_assoc, ← Nat.add_assoc]
      exact hnumbered id _ _ (hn.happen hi e)

/-- What all see of the handles of a run, and what becomes of those that are asked for or given back. -/
structure KeepsHandles (c : Crowd ι) (events : List (Event ι)) : Prop where
  /-- Only the current version is acquired, and in each store while no other is; and nothing is given back
  in its place. -/
  admits : ({} : Ledger).Admits (c.trace events)
  /-- Whoever looks whether its store is free finds a version there exactly when a handle is out, and is
  turned down. -/
  busy : ∀ a version rest, (c.after events).todo a = .checkIdle version :: rest →
    (((c.after events).shared.store a.id).published.isSome = true ↔
      ((({} : Ledger).enterAll (c.trace events)).held a.id).isSome = true) ∧
    (((Access.checkIdle version).perform a (c.after events).shared).next = [] ↔
      ((c.after events).shared.store a.id).published.isSome = true)
  /-- Of all handles that an owner may give back, only the one that is out is taken. -/
  takes : ∀ a k rest h version, (c.after events).todo a = .checkHandle k :: rest →
    (({} : Ledger).enterAll (c.trace events)).held a.id = some (h, version) →
      (((Access.checkHandle k).perform a (c.after events).shared).next = [.withdraw k] ↔ k = h)
  /-- Nothing is published but by an actor that acquires in its own store, whatever others give back. -/
  publishes : ∀ e id version, (((c.after events).happen e).1.shared.store id).published = some version →
    ((c.after events).shared.store id).published = some version ∨
      ∃ a rest, e = .step a ∧ a.id = id ∧ (c.after events).todo a = .publish version :: rest
  /-- No two handles of a store are the same before its count comes round. -/
  distinct : ∀ id, c.spent id events < UInt32.size → (handlesOf id (c.trace events)).Nodup

namespace Inv

theorem published_checkIdle (hi : c.Inv g ids) (h : c.Shown g a.id) {version : Nat}
    (htodo : c.todo a = .checkIdle version :: rest) :
    (c.shared.store a.id).published.isSome = true ↔ (g.held a.id).isSome = true := by
  have howns := (hi.ok a (.checkIdle version) (by rw [htodo]; exact .head _)).1
  refine ⟨fun hp => (h hp).resolve_right ?_, fun hheld => ?_⟩
  · exact hi.not_about htodo howns rfl fun _ _ => Access.owns_of_unsettled
  · obtain ⟨⟨k, v⟩, hk⟩ := Option.isSome_iff_exists.1 hheld
    rw [(hi.shared.held a.id k v hk).2.1]
    rfl

/-- A store takes the handle of its owner that is out, and no other. -/
theorem takes_checkHandle (hi : c.Inv g ids) {k h : Handle} {version : Nat}
    (htodo : c.todo a = .checkHandle k :: rest) (hheld : g.held a.id = some (h, version)) :
    ((Access.checkHandle k).perform a c.shared).next = [.withdraw k] ↔ k = h := by
  have htid := (hi.ok a (.checkHandle k) (by rw [htodo]; exact .head _)).2
  obtain ⟨hen, -, rfl⟩ := hi.shared.held a.id h version hheld
  have howner := (hi.shared.enabled _ hen).2
  obtain ⟨tid, sequence⟩ := k
  obtain rfl : tid = a.id := htid
  have haccepts := Store.accepts_own howner sequence
  by_cases hsame : (c.shared.store a.id).sequence = sequence
  · simp [Access.perform, Store.handle, haccepts, howner, hsame]
  · simp [Access.perform, Store.handle, haccepts, howner, hsame, Ne.symm hsame]

end Inv

/-- In any run of any number of threads, however their accesses come. -/
theorem keepsHandles (threshold cacheTime wall : Int64) (events : List (Event ι)) :
    ({ shared := { epoch := { threshold, cacheTime }, wall } } : Crowd ι).KeepsHandles events := by
  have hi₀ := Inv.new (ι := ι) threshold cacheTime wall
  have hstore : ∀ id, ({ epoch := { threshold, cacheTime }, wall } : Shared ι).store id = {} :=
    fun id => SegmentTable.get_new id
  generalize hc : ({ shared := { epoch := { threshold, cacheTime }, wall } } : Crowd ι) = c at hi₀
  have hblank : ∀ id, c.shared.store id = {} := by
    subst hc
    exact hstore
  have hshown : ∀ id, c.Shown {} id := by
    intro id hp
    rw [hblank] at hp
    cases hp
  obtain ⟨⟨ids, hi⟩, hs, hn⟩ := hi₀.reaches hshown events
  refine ⟨hi₀.admits_trace events, fun a version rest htodo => ⟨?_, ?_⟩,
    fun a k rest h version htodo hheld => hi.takes_checkHandle htodo hheld,
    fun e id version h => published_happen h, fun id hspent => ?_⟩
  · exact hi.published_checkIdle (hs a.id) htodo
  · simp only [Access.perform]
    split <;> simp_all
  · have hall := hn id [] 0 ⟨congrArg Store.sequence (hblank id), .nil⟩
    rw [Nat.zero_add] at hall
    exact hall.handed.nodup hspent

end Crowd

end BackoffStack
