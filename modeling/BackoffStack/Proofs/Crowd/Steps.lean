/-
Every access keeps what is shared in order, and leaves its actor with accesses that are in order too. It
shows nothing that the ledger does not allow.
-/
import BackoffStack.Proofs.Crowd.Custody

namespace BackoffStack

variable {ι : Type} {s s' : Shared ι} {g g' : Ledger} {ids ids' : List Nat} {a : Actor}
  {f : Store ι → Store ι} {d : Done ι} {id : Nat}

/-- Everything that matters to safety is as it was. -/
structure Shared.Quiet (s s' : Shared ι) : Prop where
  version : s'.epoch.version = s.epoch.version
  newest : s'.epoch.newest = s.epoch.newest
  registrar : s'.registrar = s.registrar
  exit : s'.exit = s.exit
  stores : ∀ id, (s.store id).Still (s'.store id)

/-- An access has gone well: what it shows is allowed, and all is in order after it. -/
structure Done.Fits (d : Done ι) (a : Actor) (s : Shared ι) (g : Ledger) (ids ids' : List Nat) :
    Prop where
  admits : g.Admits d.mark?.toList
  inv : d.shared.Inv (g.enterAll d.mark?.toList) ids'
  onward : Onward a s g ids d.shared (g.enterAll d.mark?.toList) ids'
  exit : s.exit = some a → d.shared.exit = some a
  next : ∀ access ∈ d.next, access.Ok d.shared (g.enterAll d.mark?.toList) ids' a
  tail : ∀ access ∈ d.next.tail, access.urgent = false

/-! ## What changes at most -/

namespace Shared

theorem Quiet.refl (s : Shared ι) : s.Quiet s := ⟨rfl, rfl, rfl, rfl, fun _ => .refl _⟩

theorem quiet_reach (s : Shared ι) (id : Nat) : s.Quiet (s.reach id) :=
  ⟨rfl, rfl, rfl, rfl, fun j => by rw [store_reach]; exact .refl _⟩

theorem quiet_modify (s : Shared ι) (id : Nat) (hf : ∀ t : Store ι, t.Still (f t)) :
    s.Quiet (s.modify id f) :=
  ⟨rfl, rfl, rfl, rfl, fun j => s.relates_modify id j Store.Still .refl hf⟩

namespace Inv

theorem like (hi : s.Inv g ids) (hlike : ∀ id, (s.store id).Like (s'.store id))
    (hnewest : s'.epoch.newest = s.epoch.newest) (hregistrar : s'.registrar = s.registrar)
    (hversion : g'.version = s'.epoch.version)
    (hheld : ∀ id h version, g'.held id = some (h, version) → (s.store id).enabled = true ∧
      (s'.store id).published = some version ∧ (s'.store id).handle = h)
    (hcached : g'.Safe s'.epoch.cachedMin) : s'.Inv g' ids where
  version := hversion
  chained := by
    rw [hnewest]
    exact hi.chained.congr fun id _ => (hlike id).next
  enabled id hid := by
    rw [(hlike id).enabled] at hid
    rw [(hlike id).owner]
    exact hi.enabled id hid
  settled hr id hid := by
    rw [(hlike id).enabled]
    exact hi.settled (hregistrar ▸ hr) id hid
  held id h version hh := by
    obtain ⟨hen, hp, hk⟩ := hheld id h version hh
    exact ⟨(hlike id).enabled.trans hen, hp, hk⟩
  cached := hcached

theorem quiet (hi : s.Inv g ids) (hq : s.Quiet s') (hcached : g.Safe s'.epoch.cachedMin) :
    s'.Inv g ids := by
  refine hi.like (fun id => (hq.stores id).toLike) hq.newest hq.registrar
    (hi.version.trans hq.version.symm) (fun id h version hh => ?_) hcached
  obtain ⟨hen, hp, hk⟩ := hi.held id h version hh
  refine ⟨hen, (hq.stores id).published.trans hp, ?_⟩
  rw [← hk, Store.handle, Store.handle, (hq.stores id).owner, (hq.stores id).sequence]

end Inv

end Shared

namespace Onward

/-- The list of stores stays as it is, and what is published in stores that are not the actor's own. -/
theorem like (hlike : ∀ id, (s.store id).Like (s'.store id))
    (hnewest : s'.epoch.newest = s.epoch.newest) (hregistrar : s'.registrar = s.registrar)
    (hexit : s'.exit = s.exit) (hversion : g.version ≤ g'.version)
    (hheld : ∀ id h version, g'.held id = some (h, version) →
      g.held id = some (h, version) ∨ g.version ≤ version)
    (hpub : ∀ id, id ≠ a.id ∨ ¬ s.Owns a →
      (s'.store id).published = (s.store id).published ∧ g'.held id = g.held id) :
    Onward a s g ids s' g' ids where
  version := hversion
  held := hheld
  listed _ h := h
  next id _ := (hlike id).next
  enabled id h := (hlike id).enabled.trans h
  registry _ := ⟨hlike, hnewest, rfl⟩
  registrar _ _ h := hregistrar.trans h
  publication := hpub
  exit _ _ h := hexit.trans h

theorem quiet (hq : s.Quiet s') : Onward a s g ids s' g ids :=
  .like (fun id => (hq.stores id).toLike) hq.newest hq.registrar hq.exit (Nat.le_refl _)
    (fun _ _ _ h => .inl h) fun id _ => ⟨(hq.stores id).published, rfl⟩

theorem register (hr : s.registrar = some a) (hlisted : ∀ id ∈ ids, id ∈ ids')
    (hnext : ∀ id ∈ ids, (s'.store id).next = (s.store id).next)
    (hen : ∀ id, (s.store id).enabled = true → (s'.store id).enabled = true)
    (hpub : ∀ id, (s'.store id).published = (s.store id).published) (hexit : s'.exit = s.exit) :
    Onward a s g ids s' g ids' where
  version := Nat.le_refl _
  held _ _ _ h := .inl h
  listed := hlisted
  next := hnext
  enabled := hen
  registry h := absurd hr h
  registrar _ hb h := absurd (Option.some.inj (h.symm.trans hr)) hb
  publication id _ := ⟨hpub id, rfl⟩
  exit _ _ h := hexit.trans h

end Onward

namespace Done.Fits

/-- An access that shows nothing and changes nothing that matters. -/
theorem quiet (hi : s.Inv g ids) (hq : s.Quiet d.shared) (hmark : d.mark? = none)
    (hcached : g.Safe d.shared.epoch.cachedMin)
    (hnext : ∀ access ∈ d.next, access.Ok d.shared g ids a)
    (htail : ∀ access ∈ d.next.tail, access.urgent = false) : d.Fits a s g ids ids := by
  have hg : g.enterAll d.mark?.toList = g := by rw [hmark]; rfl
  refine ⟨by rw [hmark]; trivial, ?_, ?_, fun h => hq.exit.trans h, ?_, htail⟩
  · rw [hg]
    exact hi.quiet hq hcached
  · rw [hg]
    exact .quiet hq
  · rw [hg]
    exact hnext

theorem read (hi : s.Inv g ids) {next : List (Access ι)}
    (hnext : ∀ access ∈ next, access.Ok s g ids a)
    (htail : ∀ access ∈ next.tail, access.urgent = false) :
    ({ shared := s, next } : Done ι).Fits a s g ids ids :=
  quiet hi (.refl s) rfl hi.cached hnext htail

theorem quiet_one (hi : s.Inv g ids) (hq : s.Quiet s') (hcached : g.Safe s'.epoch.cachedMin)
    {access : Access ι} (h : access.Ok s' g ids a) :
    ({ shared := s', next := [access] } : Done ι).Fits a s g ids ids :=
  quiet hi hq rfl hcached (List.forall_mem_singleton.2 h) (List.forall_mem_nil _)

theorem quiet_last (hi : s.Inv g ids) (hq : s.Quiet s') (hcached : g.Safe s'.epoch.cachedMin) :
    ({ shared := s' } : Done ι).Fits a s g ids ids :=
  quiet hi hq rfl hcached (List.forall_mem_nil _) (List.forall_mem_nil _)

theorem read_one (hi : s.Inv g ids) {access : Access ι} (h : access.Ok s g ids a) :
    ({ shared := s, next := [access] } : Done ι).Fits a s g ids ids :=
  quiet_one hi (.refl s) hi.cached h

theorem read_nil (hi : s.Inv g ids) : ({ shared := s } : Done ι).Fits a s g ids ids :=
  quiet_last hi (.refl s) hi.cached

/-- An access that changes a store in what does not matter, and after which all ways to go on are in
order whatever is shared. -/
theorem modify (hi : s.Inv g ids) (id : Nat) (hf : ∀ t : Store ι, t.Still (f t))
    {next : List (Access ι)} (hnext : ∀ access ∈ next, access.Ok (s.modify id f) g ids a)
    (htail : ∀ access ∈ next.tail, access.urgent = false) :
    ({ shared := s.modify id f, next } : Done ι).Fits a s g ids ids :=
  quiet hi (s.quiet_modify id hf) rfl hi.cached hnext htail

theorem modify_last (hi : s.Inv g ids) (id : Nat) (f : Store ι → Store ι)
    (hf : ∀ t : Store ι, t.Still (f t)) :
    ({ shared := s.modify id f } : Done ι).Fits a s g ids ids :=
  quiet_last hi (s.quiet_modify id hf) hi.cached

end Done.Fits

/-! ## Looking up one's store -/

namespace Access

variable {e : Errand ι}

theorem begin_ok (he : e.Ok s a) (hen : (s.store a.id).enabled = true) :
    ∀ access ∈ e.begin, access.Ok s g ids a := by
  intro access h
  cases e with
  | acquire =>
    obtain rfl := List.mem_singleton.1 h
    exact ⟨he, hen⟩
  | release k =>
    rcases List.mem_cons.1 h with rfl | h
    · exact he
    · obtain rfl := List.mem_singleton.1 h
      trivial
  | add node =>
    obtain rfl := List.mem_singleton.1 h
    trivial
  | retire =>
    obtain rfl := List.mem_singleton.1 h
    trivial

theorem begin_tail (e : Errand ι) : ∀ access ∈ e.begin.tail, access.urgent = false := by
  cases e with
  | release k =>
    intro access h
    obtain rfl := List.mem_singleton.1 h
    rfl
  | _ => exact List.forall_mem_nil _

theorem lookUp_fits (hi : s.Inv g ids) (h : (lookUp e).Ok s g ids a) :
    ((lookUp e).perform a s).Fits a s g ids ids := by
  have he : e.Ok (s.reach a.id) a := h.onward fun ho => Shared.owns_of_exit ho fun hx => hx
  unfold perform
  refine .quiet hi (s.quiet_reach a.id) rfl hi.cached (fun access hm => ?_) ?_
  · dsimp only at hm
    split at hm
    · next hen =>
      refine begin_ok he ?_ access hm
      rw [Shared.store_reach]
      exact hen
    · obtain rfl := List.mem_singleton.1 hm
      exact he
  · dsimp only
    split
    · exact begin_tail e
    · exact List.forall_mem_nil _

theorem lockList_fits (hi : s.Inv g ids) (h : (lockList e).Ok s g ids a) :
    ((lockList e).perform a s).Fits a s g ids ids := by
  unfold perform
  cases hr : s.registrar with
  | some b => exact .read_one hi h
  | none =>
    dsimp only
    have he : e.Ok { s with registrar := some a } a :=
      h.onward fun ho => Shared.owns_of_exit ho fun hx => hx
    refine ⟨trivial, ?_, ?_, fun hx => hx, ?_, List.forall_mem_nil _⟩
    · exact ⟨hi.version, hi.chained, hi.enabled, nofun, hi.held, hi.cached⟩
    · exact ⟨Nat.le_refl _, fun _ _ _ hh => .inl hh, fun _ hm => hm, fun _ _ => rfl, fun _ hen => hen,
        fun _ => ⟨fun _ => ⟨rfl, rfl, rfl⟩, rfl, rfl⟩, fun _ _ hb => absurd (hr.symm.trans hb) nofun,
        fun _ _ => ⟨rfl, rfl⟩, fun _ _ hx => hx⟩
    · intro access hm
      obtain rfl := List.mem_singleton.1 hm
      exact ⟨he, rfl, hi.settled hr⟩

theorem lookAgain_fits (hi : s.Inv g ids) (h : (lookAgain e).Ok s g ids a) :
    ((lookAgain e).perform a s).Fits a s g ids ids := by
  obtain ⟨he, hr, hset⟩ := h
  refine .read hi (fun access hm => ?_) ?_
  · split at hm
    · next hen =>
      obtain rfl := List.mem_singleton.1 hm
      exact ⟨he, hr, (hi.enabled _ hen).1, hset⟩
    · next hen =>
      obtain rfl := List.mem_singleton.1 hm
      exact ⟨he, hr, hset, fun hid => hen (hset _ hid)⟩
  · split <;> exact List.forall_mem_nil _

theorem readNewest_fits (hi : s.Inv g ids) (h : (readNewest e).Ok s g ids a) :
    ((readNewest e).perform a s).Fits a s g ids ids := by
  obtain ⟨he, hr, hset, hid⟩ := h
  exact .read_one hi ⟨he, hr, hset, hid, rfl⟩

/-- An access of who holds the lock of the list of stores, after which there is one way to go on. -/
theorem register_fits (hr : s.registrar = some a) (hs' : s'.Inv g ids')
    (hlisted : ∀ id ∈ ids, id ∈ ids')
    (hnext : ∀ id ∈ ids, (s'.store id).next = (s.store id).next)
    (hen : ∀ id, (s.store id).enabled = true → (s'.store id).enabled = true)
    (hpub : ∀ id, (s'.store id).published = (s.store id).published) (hexit : s'.exit = s.exit)
    {access : Access ι} (h : access.Ok s' g ids' a) :
    ({ shared := s', next := [access] } : Done ι).Fits a s g ids ids' :=
  ⟨trivial, hs', .register hr hlisted hnext hen hpub hexit, fun h => hexit.trans h,
    List.forall_mem_singleton.2 h, List.forall_mem_nil _⟩

theorem link_fits (hi : s.Inv g ids) {next : Option Nat} (h : (link e next).Ok s g ids a) :
    ((link e next).perform a s).Fits a s g ids ids := by
  obtain ⟨he, hr, hset, hid, hnext⟩ := h
  have hold : ∀ j ∈ ids, (s.modify a.id fun t => { t with next }).store j = s.store j := by
    intro j hj
    rw [Shared.store_modify, if_neg]
    rintro rfl
    exact hid hj
  have hmem : ∀ j, (s.store j).enabled = true → j ∈ ids := fun j hj => (hi.enabled j hj).1
  have hen : ∀ j, ((s.modify a.id fun t => { t with next }).store j).enabled =
      (s.store j).enabled := fun j =>
    s.relates_modify a.id j (fun t t' => t'.enabled = t.enabled) (fun _ => rfl) fun _ => rfl
  have hpub : ∀ j, ((s.modify a.id fun t => { t with next }).store j).published =
      (s.store j).published := fun j =>
    s.relates_modify a.id j (fun t t' => t'.published = t.published) (fun _ => rfl) fun _ => rfl
  have hi' : (s.modify a.id fun t => { t with next }).Inv g ids := by
    refine ⟨hi.version, ?_, ?_, ?_, ?_, hi.cached⟩
    · exact hi.chained.congr fun j hj => congrArg Store.next (hold j hj)
    · intro j hj
      rw [hen] at hj
      rw [hold j (hmem j hj)]
      exact hi.enabled j hj
    · exact fun hnone => absurd (hr.symm.trans hnone) nofun
    · intro j k version hk
      have hheld := hi.held j k version hk
      rw [hold j (hmem j hheld.1)]
      exact hheld
  refine register_fits hr hi' (fun _ hm => hm) (fun j hj => congrArg Store.next (hold j hj))
    (fun j hj => (hen j).trans hj) hpub rfl
    ⟨he, hr, fun j hj => (hen j).trans (hset j hj), hid, ?_⟩
  rw [Shared.store_modify, if_pos rfl]
  exact hnext

theorem enlist_fits (hi : s.Inv g ids) (h : (enlist e).Ok s g ids a) :
    ((enlist e).perform a s).Fits a s g ids (a.id :: ids) := by
  obtain ⟨he, hr, hset, hid, hnext⟩ := h
  have hsub : ∀ j ∈ ids, j ∈ a.id :: ids := fun j hj => List.mem_cons_of_mem _ hj
  have hchained : s.epoch.Chained (s.store a.id).next ids := hnext ▸ hi.chained
  have hi' : ({ s with epoch := { s.epoch with newest := some a.id } } : Shared ι).Inv g
      (a.id :: ids) :=
    ⟨hi.version, ⟨rfl, hchained.congr fun _ _ => rfl⟩,
      fun j hj => ⟨hsub j (hi.enabled j hj).1, (hi.enabled j hj).2⟩,
      fun hnone => absurd (hr.symm.trans hnone) nofun, hi.held, hi.cached⟩
  refine register_fits hr hi' hsub (fun _ _ => rfl) (fun _ hj => hj) (fun _ => rfl) rfl
    ⟨he, hr, List.mem_cons_self .., fun j hj hne => ?_⟩
  rcases List.mem_cons.1 hj with rfl | hj
  · exact absurd rfl hne
  · exact hset j hj

/-- The store of who holds the lock changes in what nobody uses before it is enabled. -/
theorem modify_own_fits (hi : s.Inv g ids) (hr : s.registrar = some a) (hid : a.id ∈ ids)
    (hnext : ∀ t : Store ι, (f t).next = t.next) (hpub : ∀ t : Store ι, (f t).published = t.published)
    (hsequence : ∀ t : Store ι, (f t).sequence = t.sequence)
    (hen : (s.store a.id).enabled = true → (f (s.store a.id)).enabled = true)
    (howner : (f (s.store a.id)).enabled = true → (f (s.store a.id)).owner = a.id)
    {access : Access ι} (h : access.Ok (s.modify a.id f) g ids a) :
    ({ shared := s.modify a.id f, next := [access] } : Done ι).Fits a s g ids ids := by
  have hnext' : ∀ j, ((s.modify a.id f).store j).next = (s.store j).next := fun j =>
    s.relates_modify a.id j (fun t t' => t'.next = t.next) (fun _ => rfl) hnext
  have hpub' : ∀ j, ((s.modify a.id f).store j).published = (s.store j).published := fun j =>
    s.relates_modify a.id j (fun t t' => t'.published = t.published) (fun _ => rfl) hpub
  have hen' : ∀ j, (s.store j).enabled = true → ((s.modify a.id f).store j).enabled = true := by
    intro j hj
    rw [Shared.store_modify]
    split
    · next h => exact hen (h ▸ hj)
    · exact hj
  have hi' : (s.modify a.id f).Inv g ids := by
    refine ⟨hi.version, hi.chained.congr fun j _ => hnext' j, fun j hj => ?_,
      fun hnone => absurd (hr.symm.trans hnone) nofun, fun j k version hk => ?_, hi.cached⟩
    · rw [Shared.store_modify] at hj ⊢
      by_cases hja : j = a.id
      · rw [if_pos hja] at hj ⊢
        rw [hja]
        exact ⟨hid, howner hj⟩
      · rw [if_neg hja] at hj ⊢
        exact hi.enabled j hj
    · obtain ⟨hj, hp, hh⟩ := hi.held j k version hk
      refine ⟨hen' j hj, (hpub' j).trans hp, ?_⟩
      rw [Shared.store_modify]
      by_cases hja : j = a.id
      · subst hja
        rw [if_pos rfl, ← hh, Store.handle, Store.handle, hsequence, howner (hen hj),
          (hi.enabled _ hj).2]
      · rw [if_neg hja, hh]
  exact register_fits hr hi' (fun _ hm => hm) (fun j _ => hnext' j) hen' hpub' rfl h

theorem countStore_fits (hi : s.Inv g ids) (h : (countStore e).Ok s g ids a) :
    ((countStore e).perform a s).Fits a s g ids ids := by
  obtain ⟨he, hr, hid, hset⟩ := h
  refine .quiet_one hi ?_ ?_ ?_
  · exact ⟨rfl, rfl, rfl, rfl, fun _ => .refl _⟩
  · exact hi.cached
  · exact ⟨he.onward fun ho => Shared.owns_of_exit ho fun hx => hx, hr, hid, hset⟩

theorem claim_fits (hi : s.Inv g ids) (h : (claim e).Ok s g ids a) :
    ((claim e).perform a s).Fits a s g ids ids := by
  obtain ⟨he, hr, hid, hset⟩ := h
  refine modify_own_fits (f := fun t => { t with owner := a.id }) hi hr hid (fun _ => rfl)
    (fun _ => rfl) (fun _ => rfl) (fun h => h) (fun _ => rfl) ⟨he, hr, hid, fun j hj hne => ?_, ?_⟩
  · rw [Shared.store_modify, if_neg hne]
    exact hset j hj hne
  · rw [Shared.store_modify, if_pos rfl]

theorem enable_fits (hi : s.Inv g ids) (h : (enable e).Ok s g ids a) :
    ((enable e).perform a s).Fits a s g ids ids := by
  obtain ⟨he, hr, hid, hset, howner⟩ := h
  refine modify_own_fits (f := fun t => { t with enabled := true }) hi hr hid (fun _ => rfl)
    (fun _ => rfl) (fun _ => rfl) (fun _ => rfl) (fun _ => howner) ⟨he, hr, hid, fun j hj => ?_⟩
  rw [Shared.store_modify]
  split
  · rfl
  · next hne => exact hset j hj hne

theorem unlockList_fits (hi : s.Inv g ids) (h : (unlockList e).Ok s g ids a) :
    ((unlockList e).perform a s).Fits a s g ids ids := by
  obtain ⟨he, hr, hid, hset⟩ := h
  have he' : e.Ok { s with registrar := none } a :=
    he.onward fun ho => Shared.owns_of_exit ho fun hx => hx
  refine ⟨trivial, ⟨hi.version, hi.chained, hi.enabled, fun _ => hset, hi.held, hi.cached⟩, ?_,
    fun hx => hx, begin_ok he' (hset _ hid), begin_tail e⟩
  exact .register hr (fun _ hm => hm) (fun _ _ => rfl) (fun _ hj => hj) (fun _ => rfl) rfl

/-! ## Acquiring and releasing -/

theorem lockExit_fits (hi : s.Inv g ids) :
    ((lockExit : Access ι).perform a s).Fits a s g ids ids := by
  unfold perform
  cases hx : s.exit with
  | some b => exact .read_one hi trivial
  | none =>
    dsimp only
    have howns : ({ s with exit := some a } : Shared ι).Owns a := by
      cases a with
      | live n => trivial
      | exiting n => rfl
    refine ⟨trivial, ⟨hi.version, hi.chained, hi.enabled, hi.settled, hi.held, hi.cached⟩, ?_,
      fun _ => rfl, ?_, List.forall_mem_nil _⟩
    · exact ⟨Nat.le_refl _, fun _ _ _ hh => .inl hh, fun _ hm => hm, fun _ _ => rfl, fun _ hen => hen,
        fun _ => ⟨fun _ => ⟨rfl, rfl, rfl⟩, rfl, rfl⟩, fun _ _ hb => hb,
        fun _ _ => ⟨rfl, rfl⟩, fun _ _ hb => absurd (hx.symm.trans hb) nofun⟩
    · intro access hm
      obtain rfl := List.mem_singleton.1 hm
      exact howns

theorem checkIdle_fits (hi : s.Inv g ids) {version : Nat} (h : (checkIdle version).Ok s g ids a) :
    ((checkIdle version).perform a s).Fits a s g ids ids := by
  simp only [perform]
  split
  · exact .read_nil hi
  · next hidle => exact .read_one hi ⟨h.1, h.2, by simpa using hidle⟩

/-- The owner of a store changes what it publishes there, and the ledger accordingly. -/
theorem own_fits (hi : s.Inv g ids) (howns : s.Owns a) (hf : ∀ t : Store ι, t.Like (f t))
    (mark? : Option (Mark ι)) (hadmits : g.Admits mark?.toList)
    (hversion : (g.enterAll mark?.toList).version = g.version)
    (hother : ∀ j, j ≠ a.id → (g.enterAll mark?.toList).held j = g.held j)
    (hheld : ∀ h version, (g.enterAll mark?.toList).held a.id = some (h, version) →
      g.version ≤ version ∧ (s.store a.id).enabled = true ∧
        (f (s.store a.id)).published = some version ∧ (f (s.store a.id)).handle = h)
    {next : List (Access ι)}
    (hnext : ∀ access ∈ next, access.Ok (s.modify a.id f) (g.enterAll mark?.toList) ids a)
    (htail : ∀ access ∈ next.tail, access.urgent = false) :
    ({ shared := s.modify a.id f, next, mark? } : Done ι).Fits a s g ids ids := by
  have hlike : ∀ j, (s.store j).Like ((s.modify a.id f).store j) := fun j =>
    s.relates_modify a.id j Store.Like (fun _ => ⟨rfl, rfl, rfl⟩) hf
  have honward : Onward a s g ids (s.modify a.id f) (g.enterAll mark?.toList) ids := by
    refine .like hlike rfl rfl rfl hversion.ge (fun j h version hh => ?_) (fun j hj => ?_)
    · by_cases hja : j = a.id
      · subst hja
        exact .inr (hheld h version hh).1
      · exact .inl (hother j hja ▸ hh)
    · have hne : j ≠ a.id := hj.resolve_right (not_not.2 howns)
      rw [Shared.store_modify, if_neg hne]
      exact ⟨rfl, hother j hne⟩
  refine ⟨hadmits, ?_, honward, fun hx => hx, hnext, htail⟩
  refine hi.like hlike rfl rfl (hversion.trans hi.version) (fun j h version hh => ?_)
    (honward.safe hi.cached)
  rw [Shared.store_modify]
  by_cases hja : j = a.id
  · subst hja
    rw [if_pos rfl]
    exact (hheld h version hh).2
  · rw [if_neg hja]
    exact hi.held j h version (hother j hja ▸ hh)

theorem own_fits_of_none (hi : s.Inv g ids) (howns : s.Owns a) (hf : ∀ t : Store ι, t.Like (f t))
    (hnone : g.held a.id = none) {next : List (Access ι)}
    (hnext : ∀ access ∈ next, access.Ok (s.modify a.id f) g ids a)
    (htail : ∀ access ∈ next.tail, access.urgent = false) :
    ({ shared := s.modify a.id f, next } : Done ι).Fits a s g ids ids :=
  own_fits hi howns hf none trivial rfl (fun _ _ => rfl)
    (fun _ _ hh => absurd (hnone.symm.trans hh) nofun) hnext htail

theorem publish_fits (hi : s.Inv g ids) {version : Nat} (h : (publish version).Ok s g ids a) :
    ((publish version).perform a s).Fits a s g ids ids := by
  obtain ⟨howns, hen, hpub⟩ := h
  have hnone : g.held a.id = none := by
    cases hh : g.held a.id with
    | none => rfl
    | some k => exact absurd (hpub.symm.trans (hi.held a.id k.1 k.2 hh).2.1) nofun
  refine own_fits_of_none (f := fun t => { t with published := some version }) hi howns
    (fun _ => ⟨rfl, rfl, rfl⟩) hnone (fun access hm => ?_) (List.forall_mem_nil _)
  obtain rfl := List.mem_singleton.1 hm
  refine ⟨howns, ?_, ?_, hnone⟩
  · rw [Shared.store_modify, if_pos rfl]
    exact hen
  · rw [Shared.store_modify, if_pos rfl]

theorem confirm_fits (hi : s.Inv g ids) {version : Nat} (h : (confirm version).Ok s g ids a) :
    ((confirm version).perform a s).Fits a s g ids ids := by
  obtain ⟨howns, hen, hpub, hnone⟩ := h
  unfold perform
  dsimp only
  by_cases hv : version = s.epoch.version
  · rw [if_pos hv]
    have htid : (s.store a.id).handle.tid = a.id := (hi.enabled _ hen).2
    have hallow : g.Allows (.acquired (ι := ι) (s.store a.id).handle version) :=
      ⟨hv.trans hi.version.symm, htid.symm ▸ hnone⟩
    have hheld : (g.enter (.acquired (ι := ι) (s.store a.id).handle version)).held =
        Function.update g.held a.id (some ((s.store a.id).handle, version)) :=
      congrArg (Function.update g.held · _) htid
    have hcases : ∀ j k x, (g.enter (.acquired (ι := ι) (s.store a.id).handle version)).held j =
        some (k, x) → (j = a.id ∧ k = (s.store a.id).handle ∧ x = version) ∨
          g.held j = some (k, x) := by
      intro j k x hk
      rw [hheld] at hk
      by_cases hj : j = a.id
      · subst hj
        rw [Function.update_self] at hk
        cases hk
        exact .inl ⟨rfl, rfl, rfl⟩
      · rw [Function.update_of_ne hj] at hk
        exact .inr hk
    have honward : Onward a s g ids s (g.enter (.acquired (ι := ι) (s.store a.id).handle version))
        ids := by
      refine .like (fun _ => ⟨rfl, rfl, rfl⟩) rfl rfl rfl (Nat.le_refl _) (fun j k x hk => ?_)
        fun j hj => ⟨rfl, ?_⟩
      · rcases hcases j k x hk with ⟨-, -, rfl⟩ | hk
        · exact .inr hallow.1.ge
        · exact .inl hk
      · rw [hheld]
        exact Function.update_of_ne (hj.resolve_right (not_not.2 howns)) ..
    refine ⟨⟨hallow, trivial⟩, hi.like (fun _ => ⟨rfl, rfl, rfl⟩) rfl rfl hi.version
      (fun j k x hk => ?_) (honward.safe hi.cached), honward, fun hx => hx, List.forall_mem_nil _,
        List.forall_mem_nil _⟩
    rcases hcases j k x hk with ⟨rfl, rfl, rfl⟩ | hk
    · exact ⟨hen, hpub, rfl⟩
    · exact hi.held j k x hk
  · rw [if_neg hv]
    exact .read_one hi ⟨howns, hen, hnone⟩

theorem retract_fits (hi : s.Inv g ids) (h : (retract : Access ι).Ok s g ids a) :
    ((retract : Access ι).perform a s).Fits a s g ids ids := by
  obtain ⟨howns, hen, hnone⟩ := h
  refine own_fits_of_none (f := fun t => { t with published := none }) hi howns
    (fun _ => ⟨rfl, rfl, rfl⟩) hnone (fun access hm => ?_) (List.forall_mem_nil _)
  obtain rfl := List.mem_singleton.1 hm
  refine ⟨howns, ?_, hnone⟩
  rw [Shared.store_modify, if_pos rfl]
  exact hen

theorem advance_fits (hi : s.Inv g ids) {again : Bool} (h : (advance again).Ok s g ids a) :
    ((advance again).perform a s).Fits a s g ids ids := by
  cases again with
  | true =>
    obtain ⟨howns, hen, hnone⟩ := h
    refine own_fits_of_none (f := fun t => { t with sequence := t.sequence + 1 }) hi howns
      (fun _ => ⟨rfl, rfl, rfl⟩) hnone (fun access hm => ?_) (List.forall_mem_nil _)
    obtain rfl := List.mem_singleton.1 hm
    refine ⟨howns, ?_⟩
    rw [Shared.store_modify, if_pos rfl]
    exact hen
  | false =>
    obtain ⟨howns, hnone⟩ := h
    exact own_fits_of_none (f := fun t => { t with sequence := t.sequence + 1 }) hi howns
      (fun _ => ⟨rfl, rfl, rfl⟩) hnone (List.forall_mem_nil _) (List.forall_mem_nil _)

theorem checkHandle_fits (hi : s.Inv g ids) {h : Handle} (ho : (checkHandle h).Ok s g ids a) :
    ((checkHandle h).perform a s).Fits a s g ids ids := by
  obtain ⟨howns, hid⟩ := ho
  refine .read hi (fun access hm => ?_) ?_
  · split at hm
    · next hacc =>
      obtain rfl := List.mem_singleton.1 hm
      refine ⟨howns, hid, fun h' version hh => ?_⟩
      obtain ⟨hen, -, rfl⟩ := hi.held a.id h' version hh
      have howner := (hi.enabled _ hen).2
      obtain ⟨tid, sequence⟩ := h
      dsimp only at hid
      simp only [Store.accepts, howner, hid, beq_self_eq_true, Bool.true_and, bne_eq_false_iff_eq,
        Bool.not_eq_true'] at hacc
      rw [Store.handle, howner, hid, hacc]
    · cases hm
  · split <;> exact List.forall_mem_nil _

theorem withdraw_fits (hi : s.Inv g ids) {h : Handle} (ho : (withdraw h).Ok s g ids a) :
    ((withdraw h).perform a s).Fits a s g ids ids := by
  obtain ⟨howns, hid, hheld⟩ := ho
  have hallow : g.Allows (.released (ι := ι) h) := fun k version hk => hheld k version (hid ▸ hk)
  have hnone : (g.enter (.released (ι := ι) h)).held a.id = none := by
    rw [← hid]
    exact Function.update_self ..
  refine own_fits (f := fun t => { t with published := none }) hi howns (fun _ => ⟨rfl, rfl, rfl⟩)
    (some (.released h)) ⟨hallow, trivial⟩ rfl (fun j hj => ?_)
    (fun k version hk => absurd (hnone.symm.trans hk) nofun) (fun access hm => ?_) nofun
  · exact Function.update_of_ne (hid ▸ hj) ..
  · obtain rfl := List.mem_singleton.1 hm
    exact ⟨howns, hnone⟩

/-! ## The least version in use -/

theorem safe_of_scans {least : Nat} (h : s.Scans g ids least none) : g.Safe least := by
  obtain ⟨hle, rest, hc, -, hheld⟩ := h
  refine ⟨hle, fun j k version hk => (hheld j k version hk).resolve_right fun hj => ?_⟩
  cases rest with
  | nil => cases hj
  | cons j' rest => exact absurd hc.1 nofun

/-- A scan goes on with the next store, or is over and has found a safe minimum. -/
theorem scan_ok {x : Extent} {least : Nat} {link : Option Nat} (h : s.Scans g ids least link) :
    ∀ access ∈ x.scan least link, access.Ok s g ids a := by
  intro access hm
  cases link with
  | none =>
    obtain rfl := List.mem_singleton.1 hm
    exact safe_of_scans h
  | some j =>
    obtain rfl := List.mem_singleton.1 hm
    exact h

theorem scan_tail (x : Extent) (least : Nat) (link : Option Nat) :
    ∀ access ∈ (x.scan (ι := ι) least link).tail, access.urgent = false := by
  cases link <;> exact List.forall_mem_nil _

theorem readList_fits (hi : s.Inv g ids) {x : Extent} {least : Nat}
    (h : (readList x least).Ok s g ids a) :
    ((readList x least).perform a s).Fits a s g ids ids := by
  refine .read hi (scan_ok ⟨h, ids, hi.chained, fun _ hj => hj, fun j k version hk => .inr ?_⟩)
    (scan_tail _ _ _)
  exact (hi.enabled j (hi.held j k version hk).1).1

theorem readPublished_fits (hi : s.Inv g ids) {x : Extent} {least id : Nat}
    (h : (readPublished x least id).Ok s g ids a) :
    ((readPublished x least id).perform a s).Fits a s g ids ids := by
  obtain ⟨hle, rest, hc, hsub, hheld⟩ := h
  cases rest with
  | nil => exact absurd hc nofun
  | cons j rest =>
    obtain ⟨hj, hc⟩ := hc
    cases hj
    refine .read_one hi ⟨hsub id (List.mem_cons_self ..), (Nat.min_le_left ..).trans hle, rest, hc,
      fun j hj => hsub j (List.mem_cons_of_mem _ hj), fun j k version hk => ?_⟩
    rcases hheld j k version hk with hlt | hj
    · exact .inl ((Nat.min_le_left ..).trans hlt)
    · rcases List.mem_cons.1 hj with rfl | hj
      · left
        rw [(hi.held j k version hk).2.1]
        exact Nat.min_le_right ..
      · exact .inr hj

theorem drain_ok {x : Extent} {least : Nat} (h : g.Safe least) :
    ∀ access ∈ x.drain (ι := ι) a least, access.Ok s g ids a := by
  intro access hm
  cases x with
  | own =>
    obtain rfl := List.mem_singleton.1 hm
    exact h
  | all =>
    rcases List.mem_cons.1 hm with rfl | hm
    · exact h
    · obtain rfl := List.mem_singleton.1 hm
      exact h

theorem drain_tail (x : Extent) (a : Actor) (least : Nat) :
    ∀ access ∈ (x.drain (ι := ι) a least).tail, access.urgent = false := by
  cases x with
  | own => exact List.forall_mem_nil _
  | all =>
    intro access hm
    obtain rfl := List.mem_singleton.1 hm
    rfl

theorem readCached_fits (hi : s.Inv g ids) :
    ((readCached : Access ι).perform a s).Fits a s g ids ids := by
  refine .read hi (fun access hm => ?_) ?_
  · split at hm
    · obtain rfl := List.mem_singleton.1 hm
      exact hi.cached
    · obtain rfl := List.mem_singleton.1 hm
      trivial
  · split <;> exact List.forall_mem_nil _

theorem readClock_fits (hi : s.Inv g ids) {least : Nat} {cachedAt : Int64}
    (h : (readClock least cachedAt).Ok s g ids a) :
    ((readClock least cachedAt).perform a s).Fits a s g ids ids := by
  simp only [perform]
  cases checked (cachedAt.toInt + s.epoch.cacheTime.toInt) with
  | error _ => exact .read_nil hi
  | ok expiry =>
    dsimp only
    split
    · exact .read hi (drain_ok h) (drain_tail _ _ _)
    · exact .read_one hi trivial

theorem compareOwn_fits (hi : s.Inv g ids) :
    ((compareOwn : Access ι).perform a s).Fits a s g ids ids := by
  simp only [perform]
  split <;> exact .read_one hi trivial

theorem compareAll_fits (hi : s.Inv g ids) (stores : Int) :
    ((compareAll stores : Access ι).perform a s).Fits a s g ids ids := by
  simp only [perform]
  cases checked (stores * s.epoch.threshold.toInt) with
  | error _ => exact .read_nil hi
  | ok limit =>
    dsimp only
    split
    · exact .read_one hi trivial
    · exact .read_nil hi

theorem keepMin_fits (hi : s.Inv g ids) {x : Extent} {least : Nat}
    (h : (keepMin x least).Ok s g ids a) : ((keepMin x least).perform a s).Fits a s g ids ids := by
  refine .quiet_one hi ?_ ?_ ?_
  · exact ⟨rfl, rfl, rfl, rfl, fun _ => .refl _⟩
  · exact h
  · exact h

theorem keepTime_fits (hi : s.Inv g ids) {x : Extent} {least : Nat} {now : Int64}
    (h : (keepTime x least now).Ok s g ids a) :
    ((keepTime x least now).perform a s).Fits a s g ids ids :=
  .quiet hi ⟨rfl, rfl, rfl, rfl, fun _ => .refl _⟩ rfl hi.cached (drain_ok h) (drain_tail _ _ _)

/-! ## Draining -/

theorem visit_ok {version : Nat} (h : g.Safe version) (link : Option Nat) :
    ∀ access ∈ a.visit (ι := ι) version link, access.Ok s g ids a := by
  intro access hm
  cases link with
  | none => cases hm
  | some j =>
    rcases List.mem_append.1 hm with hm | hm
    · split at hm
      · cases hm
      · obtain rfl := List.mem_singleton.1 hm
        exact h
    · obtain rfl := List.mem_singleton.1 hm
      exact h

theorem visit_tail (a : Actor) (version : Nat) (link : Option Nat) :
    ∀ access ∈ (a.visit (ι := ι) version link).tail, access.urgent = false := by
  intro access hm
  cases link with
  | none => cases hm
  | some j =>
    rcases List.mem_append.1 (List.mem_of_mem_tail hm) with hm | hm
    · split at hm
      · cases hm
      · obtain rfl := List.mem_singleton.1 hm
        rfl
    · obtain rfl := List.mem_singleton.1 hm
      rfl

theorem swapRetired_fits (hi : s.Inv g ids) {id version : Nat}
    (h : (swapRetired id version).Ok s g ids a) :
    ((swapRetired id version).perform a s).Fits a s g ids ids := by
  refine .modify (f := fun t => { t with lastRetired := version }) hi id
    (fun _ => ⟨⟨rfl, rfl, rfl⟩, rfl, rfl⟩) (fun access hm => ?_) ?_
  · split at hm
    · cases hm
    · obtain rfl := List.mem_singleton.1 hm
      exact h
  · split <;> exact List.forall_mem_nil _

theorem mem_dispose {kept freed : List (Waiting ι)} {access : Access ι}
    (h : access ∈ Actor.dispose id kept freed) : access = push kept ∨ access = countOwn kept.length ∨
      access = uncount id (kept.length + freed.length) ∨ (∃ w ∈ freed, access = free w) ∨
      access = countAll (-freed.length) := by
  unfold Actor.dispose at h
  rcases List.mem_append.1 h with h | h
  · rcases List.mem_append.1 h with h | h
    · split at h
      · cases h
      · rcases List.mem_cons.1 h with h | h
        · exact .inl h
        · exact .inr (.inl (List.mem_singleton.1 h))
    · rcases List.mem_cons.1 h with h | h
      · exact .inr (.inr (.inl h))
      · obtain ⟨w, hw, h⟩ := List.mem_map.1 h
        exact .inr (.inr (.inr (.inl ⟨w, hw, h.symm⟩)))
  · exact .inr (.inr (.inr (.inr (List.mem_singleton.1 h))))

theorem takeList_fits (hi : s.Inv g ids) {id version : Nat}
    (h : (takeList id version).Ok s g ids a) :
    ((takeList id version).perform a s).Fits a s g ids ids := by
  have hsafe : g.Safe version := h
  refine .modify (f := fun t => { t with waiting := [] }) hi id
    (fun _ => ⟨⟨rfl, rfl, rfl⟩, rfl, rfl⟩) (fun access hm => ?_) fun access hm => ?_
  · rcases mem_dispose hm with rfl | rfl | rfl | ⟨w, hw, rfl⟩ | rfl
    · trivial
    · trivial
    · trivial
    · rw [Store.sift_eq, List.append_nil, List.mem_reverse, List.mem_filter] at hw
      exact hsafe.of_le (of_decide_eq_true hw.2)
    · trivial
  · rcases mem_dispose (List.mem_of_mem_tail hm) with rfl | rfl | rfl | ⟨w, -, rfl⟩ | rfl
    all_goals rfl

theorem free_fits (hi : s.Inv g ids) {w : Waiting ι} (h : (free w).Ok s g ids a) :
    ((free w).perform a s).Fits a s g ids ids := by
  refine ⟨⟨h, trivial⟩, hi, .quiet (.refl s), fun hx => hx, fun access hm => ?_, fun access hm => ?_⟩
  · obtain ⟨node, -, rfl⟩ := List.mem_map.1 hm
    trivial
  · obtain ⟨node, -, rfl⟩ := List.mem_map.1 (List.mem_of_mem_tail hm)
    rfl

theorem stamp_fits (hi : s.Inv g ids) (node : Node ι) :
    ((stamp node).perform a s).Fits a s g ids ids := by
  have hversion : g.version + 1 = s.epoch.version + 1 := congrArg (· + 1) hi.version
  have honward : Onward a s g ids
      { s with epoch := { s.epoch with version := s.epoch.version + 1 } }
      { g with version := g.version + 1 } ids :=
    .like (fun _ => ⟨rfl, rfl, rfl⟩) rfl rfl rfl (Nat.le_succ _) (fun _ _ _ hk => .inl hk)
      fun _ _ => ⟨rfl, rfl⟩
  refine ⟨⟨hversion.symm, trivial⟩, hi.like (fun _ => ⟨rfl, rfl, rfl⟩) rfl rfl hversion hi.held
    (honward.safe hi.cached), honward, fun hx => hx, fun access hm => ?_, fun access hm => ?_⟩
  · simp only [perform, List.mem_cons, List.not_mem_nil, or_false] at hm
    rcases hm with rfl | rfl | rfl | rfl
    all_goals trivial
  · simp only [perform, List.tail_cons, List.mem_cons, List.not_mem_nil, or_false] at hm
    rcases hm with rfl | rfl | rfl
    all_goals rfl

/-! ## Any access -/

/-- Whatever an actor does next, if it is in order it goes well. -/
theorem fits (hi : s.Inv g ids) {access : Access ι} (h : access.Ok s g ids a) :
    ∃ ids', (access.perform a s).Fits a s g ids ids' := by
  cases access with
  | lookUp e => exact ⟨ids, lookUp_fits hi h⟩
  | lockList e => exact ⟨ids, lockList_fits hi h⟩
  | lookAgain e => exact ⟨ids, lookAgain_fits hi h⟩
  | readNewest e => exact ⟨ids, readNewest_fits hi h⟩
  | link e next => exact ⟨ids, link_fits hi h⟩
  | enlist e => exact ⟨a.id :: ids, enlist_fits hi h⟩
  | countStore e => exact ⟨ids, countStore_fits hi h⟩
  | claim e => exact ⟨ids, claim_fits hi h⟩
  | enable e => exact ⟨ids, enable_fits hi h⟩
  | unlockList e => exact ⟨ids, unlockList_fits hi h⟩
  | lockExit => exact ⟨ids, lockExit_fits hi⟩
  | readVersion => exact ⟨ids, .read_one hi h⟩
  | checkIdle version => exact ⟨ids, checkIdle_fits hi h⟩
  | publish version => exact ⟨ids, publish_fits hi h⟩
  | confirm version => exact ⟨ids, confirm_fits hi h⟩
  | retract => exact ⟨ids, retract_fits hi h⟩
  | advance again => exact ⟨ids, advance_fits hi h⟩
  | checkHandle k => exact ⟨ids, checkHandle_fits hi h⟩
  | withdraw k => exact ⟨ids, withdraw_fits hi h⟩
  | compareOwn => exact ⟨ids, compareOwn_fits hi⟩
  | readStoreCount => exact ⟨ids, .read_one hi trivial⟩
  | compareAll stores => exact ⟨ids, compareAll_fits hi stores⟩
  | readCached => exact ⟨ids, readCached_fits hi⟩
  | readCachedAt least => exact ⟨ids, .read_one hi h⟩
  | readClock least cachedAt => exact ⟨ids, readClock_fits hi h⟩
  | beginScan x => exact ⟨ids, .read_one hi hi.version.ge⟩
  | readList x least => exact ⟨ids, readList_fits hi h⟩
  | readPublished x least id => exact ⟨ids, readPublished_fits hi h⟩
  | readNext x least id => exact ⟨ids, .read hi (scan_ok h.2) (scan_tail _ _ _)⟩
  | keepMin x least => exact ⟨ids, keepMin_fits hi h⟩
  | noteTime x least => exact ⟨ids, .read_one hi h⟩
  | keepTime x least now => exact ⟨ids, keepTime_fits hi h⟩
  | swapRetired id version => exact ⟨ids, swapRetired_fits hi h⟩
  | takeList id version => exact ⟨ids, takeList_fits hi h⟩
  | push nodes => exact ⟨ids, .modify_last hi _ _ fun _ => ⟨⟨rfl, rfl, rfl⟩, rfl, rfl⟩⟩
  | countOwn n => exact ⟨ids, .modify_last hi _ _ fun _ => ⟨⟨rfl, rfl, rfl⟩, rfl, rfl⟩⟩
  | uncount id n => exact ⟨ids, .modify_last hi _ _ fun _ => ⟨⟨rfl, rfl, rfl⟩, rfl, rfl⟩⟩
  | countAll n =>
    refine ⟨ids, .quiet_last hi ?_ hi.cached⟩
    exact ⟨rfl, rfl, rfl, rfl, fun _ => .refl _⟩
  | free w => exact ⟨ids, free_fits hi h⟩
  | stamp node => exact ⟨ids, stamp_fits hi node⟩
  | forgetRetired => exact ⟨ids, .modify_last hi _ _ fun _ => ⟨⟨rfl, rfl, rfl⟩, rfl, rfl⟩⟩
  | readOthers version => exact ⟨ids, .read hi (visit_ok h _) (visit_tail _ _ _)⟩
  | readOther version id => exact ⟨ids, .read hi (visit_ok h _) (visit_tail _ _ _)⟩

end Access

end BackoffStack
