/-
How an epoch gets on from one operation to the next.

The oldest version in use only grows: whoever publishes one publishes the global version, which is not
below it. So a minimum that is kept from an earlier look stays below all versions in use, however the
wall clock moves. And each store that is registered is counted (`Epoch.Advances`).
-/
import BackoffStack.Proofs.Hazard.Operations

namespace BackoffStack

variable {ι : Type}

namespace Epoch

variable {e e' e'' : Epoch ι} {id me version : Nat} {nodes : List (Node ι)}

/-- The stores on the list are counted. -/
def Counted (e : Epoch ι) : Prop := e.storeCount = e.registered.length

/-- What has become of an epoch, as far as its oldest version and its list are concerned. -/
structure Advances (e e' : Epoch ι) : Prop where
  inUse : ∀ v, e'.InUse v → ∃ u, e.InUse u ∧ u ≤ v
  conservative : e.Conservative → e'.Conservative
  counted : e.Counted → e'.Counted

/-- The list is the same where the links are. -/
theorem registered_congr (hs : e'.stores = e.stores) (hn : e'.newest = e.newest) :
    e'.registered = e.registered := by
  have hfollow : ∀ fuel link, e'.follow fuel link = e.follow fuel link := by
    intro fuel
    induction fuel with
    | zero => exact fun _ => rfl
    | succ fuel ih =>
      intro link
      cases link with
      | none => rfl
      | some id => rw [follow, follow, ih, store, store, hs]
  rw [registered, registered, hfollow, hs, hn]

theorem Advances.refl (e : Epoch ι) : e.Advances e := ⟨fun v h => ⟨v, h, Nat.le_refl v⟩, id, id⟩

theorem Advances.trans (h : e.Advances e') (h' : e'.Advances e'') : e.Advances e'' where
  inUse v hv := by
    obtain ⟨u, hu, huv⟩ := h'.inUse v hv
    obtain ⟨x, hx, hxu⟩ := h.inUse u hu
    exact ⟨x, hx, hxu.trans huv⟩
  conservative hc := h'.conservative (h.conservative hc)
  counted hc := h'.counted (h.counted hc)

/-- The oldest version in use only grows. -/
theorem Advances.oldest_le (h : e.Advances e') {u v : Nat} (hu : IsLeast {x | e.InUse x} u)
    (hv : e'.InUse v) : u ≤ v := by
  obtain ⟨x, hx, hxv⟩ := h.inUse v hv
  exact (hu.2 hx).trans hxv

namespace Inv

/-- What is published anew is not below the global version. -/
theorem inUse_of_published (h : ∀ id v, (e'.store id).published = some v →
      (e.store id).enabled = true ∧ (e.store id).published = some v ∨ e.version ≤ v)
    (hv : e.version ≤ e'.version) (v : Nat) (hu : e'.InUse v) : ∃ u, e.InUse u ∧ u ≤ v := by
  rcases hu with rfl | ⟨id, -, hp⟩
  · exact ⟨e.version, .inl rfl, hv⟩
  · rcases h id v hp with hold | hnew
    · exact ⟨v, .inr ⟨id, hold⟩, Nat.le_refl v⟩
    · exact ⟨e.version, .inl rfl, hnew⟩

theorem enabled_of_published (hi : e.Inv) {v : Nat} (h : (e.store id).published = some v) :
    (e.store id).enabled = true := by
  by_contra he
  simp [hi.blank id (by simpa using he)] at h

/-- The same stores are on the list. -/
theorem length_registered (hi : e.Inv) (hi' : e'.Inv)
    (h : ∀ id, (e'.store id).enabled = (e.store id).enabled) :
    e'.registered.length = e.registered.length := by
  refine List.Perm.length_eq ((List.perm_ext_iff_of_nodup hi'.registered_spec.2.1
    hi.registered_spec.2.1).2 fun id => ?_)
  rw [hi'.mem_registered, hi.mem_registered, h]

/-- An operation that registers no store, and keeps what is known of the oldest version. -/
theorem advances (hi : e.Inv) (hi' : e'.Inv) (hcount : e'.storeCount = e.storeCount)
    (hmin : e'.cachedMin = e.cachedMin)
    (henabled : ∀ id, (e'.store id).enabled = (e.store id).enabled)
    (hpublished : ∀ id v, (e'.store id).published = some v →
      (e.store id).published = some v ∨ e.version ≤ v)
    (hversion : e.version ≤ e'.version) : e.Advances e' := by
  have hinUse : ∀ v, e'.InUse v → ∃ u, e.InUse u ∧ u ≤ v := inUse_of_published
    (fun id v hp => (hpublished id v hp).imp_left fun h => ⟨hi.enabled_of_published h, h⟩) hversion
  refine ⟨hinUse, fun hc v hv => ?_, fun hc => ?_⟩
  · obtain ⟨u, hu, huv⟩ := hinUse v hv
    exact hmin ▸ (hc u hu).trans huv
  · unfold Counted at *
    rw [hcount, hc, length_registered hi hi' henabled]

theorem advances_of_still (hi : e.Inv) (hi' : e'.Inv) (hcount : e'.storeCount = e.storeCount)
    (hmin : e'.cachedMin = e.cachedMin) (hstill : ∀ id, (e.store id).Still (e'.store id))
    (hversion : e.version ≤ e'.version) : e.Advances e' :=
  hi.advances hi' hcount hmin (fun id => (hstill id).enabled)
    (fun id _ hp => .inl ((hstill id).published ▸ hp)) hversion

theorem advances_of_eq (hi : e.Inv) (hs : e'.stores = e.stores) (hn : e'.newest = e.newest)
    (hcount : e'.storeCount = e.storeCount) (hmin : e'.cachedMin = e.cachedMin)
    (hv : e'.version = e.version) : e.Advances e' := by
  have hstore : ∀ id, e'.store id = e.store id := fun id => by rw [store, hs, store]
  exact hi.advances_of_still (hi.congr hs hn hv.ge) hcount hmin (fun id => hstore id ▸ .refl _) hv.ge

/-! ## Looking up one's store -/

theorem chained_unique {link : Option Nat} {ids ids' : List Nat} (h : e.Chained link ids)
    (h' : e.Chained link ids') : ids = ids' := by
  induction ids generalizing link ids' with
  | nil =>
    cases ids' with
    | nil => rfl
    | cons id' ids' => exact absurd (h.symm.trans h'.1) (by simp)
  | cons id ids ih =>
    cases ids' with
    | nil => exact absurd (h'.symm.trans h.1) (by simp)
    | cons id' ids' =>
      obtain rfl : id = id' := Option.some.inj (h.1.symm.trans h'.1)
      rw [ih h.2 h'.2]

/-- A store that is looked up for the first time comes before all others. -/
theorem registered_enter (hi : e.Inv) (id : Nat) : (e.enter id).registered =
    if (e.store id).enabled then e.registered else id :: e.registered := by
  cases he : (e.store id).enabled with
  | true => rw [hi.enter_eq he, if_pos rfl]
  | false =>
    rw [if_neg (by simp)]
    obtain ⟨hchained, -, hmem⟩ := hi.registered_spec
    refine chained_unique (hi.enter id).registered_spec.1 ⟨?_, ?_⟩
    · rw [enter_of_not_enabled he]
      rfl
    · rw [hi.store_enter, if_pos ⟨rfl, he⟩]
      refine hchained.congr fun j hj => ?_
      rw [hi.store_enter, if_neg]
      rintro ⟨rfl, -⟩
      simp [(hmem j).1 hj] at he

theorem storeCount_enter (e : Epoch ι) (id : Nat) : (e.enter id).storeCount =
    if (e.store id).enabled then e.storeCount else e.storeCount + 1 := by
  cases he : (e.store id).enabled with
  | true => rw [enter_of_enabled he, if_pos rfl]
  | false =>
    rw [enter_of_not_enabled he, if_neg (by simp)]
    rfl

theorem cachedMin_enter (e : Epoch ι) (id : Nat) : (e.enter id).cachedMin = e.cachedMin := by
  unfold Epoch.enter
  dsimp only
  split <;> rfl

theorem advances_enter (hi : e.Inv) (id : Nat) : e.Advances (e.enter id) where
  inUse v hv := ⟨v, (hi.inUse_enter id v).1 hv, Nat.le_refl v⟩
  conservative hc v hv := by
    rw [cachedMin_enter]
    exact hc v ((hi.inUse_enter id v).1 hv)
  counted hc := by
    unfold Counted at *
    rw [storeCount_enter, hi.registered_enter, hc]
    split <;> simp

/-! ## Looking for the oldest version -/

/-- A fresh look finds the oldest version in use, and keeps it. -/
theorem advances_refreshMin (hi : e.Inv) (now : Int64) : e.Advances (e.refreshMin now).2 where
  inUse v hv := ⟨v, hv, Nat.le_refl v⟩
  conservative _ _ hv := hi.oldestVersion_isLeast.2 hv
  counted hc := by
    have hsame : (e.refreshMin now).2.registered = e.registered := registered_congr rfl rfl
    exact hc.trans (by rw [hsame])

theorem advances_minVersion (hi : e.Inv) {now : Int64} {version : Nat}
    (h : e.minVersion now = .ok (version, e')) : e.Advances e' := by
  rcases minVersion_eq_ok h with ⟨-, rfl⟩ | ⟨-, rfl⟩
  · exact .refl _
  · exact hi.advances_refreshMin now

/-! ## Queueing and draining -/

/-- Queueing nodes registers no store but one's own, and looks for no version. -/
theorem fields_addAll (hi : e.Inv) (hm : (e.store me).enabled = true)
    (h : e.addAll me nodes = .ok e') :
    e' = { e with
      stores := e'.stores
      version := e'.version
      waitingCount := e'.waitingCount } := by
  induction nodes generalizing e with
  | nil =>
    cases h
    rfl
  | cons node nodes ih =>
    obtain ⟨e₁, h₁, hq⟩ := hi.add me node
    have hrest : e₁.addAll me nodes = .ok e' := by
      obtain ⟨e₂, h₂, h⟩ := exists_of_bind_eq_ok (show (e.add me node >>= fun e : Epoch ι =>
        e.addAll me nodes) = .ok e' from h)
      cases h₁.symm.trans h₂
      exact h
    rw [hi.enter_eq hm] at hq
    have hone := (hi.add_eq me node).symm.trans h₁
    rw [hi.enter_eq hm] at hone
    rw [ih hq.inv (hq.still.enabled.trans hm) hrest]
    cases hone
    rfl

theorem advances_add (hi : e.Inv) {node : Node ι} (h : e.add me node = .ok e') : e.Advances e' := by
  obtain ⟨e₁, h₁, hq⟩ := hi.add me node
  cases h₁.symm.trans h
  have hone := (hi.add_eq me node).symm.trans h
  refine (hi.advances_enter me).trans ((hi.enter me).advances_of_still hq.inv ?_ ?_ hq.stills
    hq.turnover.version_le)
  · cases hone
    rfl
  · cases hone
    rfl

theorem advances_drain (hi : e.Inv) (hid : (e.store id).enabled = true)
    (hm : (e.store me).enabled = true) (hl : me ≠ id → (e.store me).lastRetired ≤ version)
    {labels : List ι} (h : e.drain me id me version = .ok (labels, e')) : e.Advances e' := by
  obtain ⟨freed, added, e₁, h₁, hr⟩ := hi.drain hid hm hl
  obtain ⟨-, rfl⟩ := Prod.mk.inj (Except.ok.inj (h₁.symm.trans h))
  rw [drain_eq (hi.owned me hm).1] at h
  obtain ⟨e₂, h₂, hrest⟩ := exists_of_bind_eq_ok h
  have hpart := (hi.part hid hm hl).1
  have hstill : (e.store me).Still ((e.part id me version).store me) := hi.still_part hid hm me
  have hfields := hpart.fields_addAll (hstill.enabled.trans hm) h₂
  have hcount : e₂.storeCount = e.storeCount := by
    rw [hfields]
    rfl
  have hmin : e₂.cachedMin = e.cachedMin := by
    rw [hfields]
    rfl
  obtain ⟨-, rfl⟩ := Prod.mk.inj (Except.ok.inj hrest)
  exact hi.advances_of_still hr.inv hcount hmin hr.still hr.turnover.version_le

theorem advances_drainAll (hi : e.Inv) {ids : List Nat}
    (hids : ∀ id ∈ ids, (e.store id).enabled = true) (hm : (e.store me).enabled = true)
    (hl : (e.store me).lastRetired ≤ version) {labels : List ι}
    (h : e.drainAll me version ids = .ok (labels, e')) : e.Advances e' := by
  induction ids generalizing e labels with
  | nil =>
    cases h
    exact .refl _
  | cons id ids ih =>
    obtain ⟨freed, added, e₁, h₁, hr⟩ := hi.drain (hids id (List.mem_cons_self ..)) hm fun _ => hl
    have hfirst := hi.advances_drain (hids id (List.mem_cons_self ..)) hm (fun _ => hl) h₁
    obtain ⟨⟨first, e₂⟩, h₂, h⟩ := exists_of_bind_eq_ok h
    obtain ⟨-, rfl⟩ := Prod.mk.inj (Except.ok.inj (h₁.symm.trans h₂))
    obtain ⟨⟨later, e₃⟩, h₃, hrest⟩ := exists_of_bind_eq_ok h
    obtain ⟨-, rfl⟩ := Prod.mk.inj (Except.ok.inj hrest)
    exact hfirst.trans (ih hr.inv
      (fun j hj => ((hr.still j).enabled).trans (hids j (List.mem_cons_of_mem _ hj)))
      (((hr.still me).enabled).trans hm) hr.lastRetired h₃)

theorem advances_retire (hi : e.Inv) {now : Int64} {labels : List ι}
    (h : e.retire me now = .ok (labels, e')) : e.Advances e' := by
  have hm := (hi.enabled_enter me me).2 (.inl rfl)
  have hi₁ : ((e.enter me).refreshMin now).2.Inv := (hi.enter me).congr rfl rfl (Nat.le_refl _)
  have hown : me ≠ me →
      (((e.enter me).refreshMin now).2.store me).lastRetired ≤ (e.enter me).oldestVersion :=
    fun h => absurd rfl h
  obtain ⟨⟨mine, e₂⟩, h₂, h⟩ := exists_of_bind_eq_ok h
  obtain ⟨freed, added, e₁, h₁, hr⟩ := hi₁.drain hm hm hown
  obtain ⟨-, rfl⟩ := Prod.mk.inj (Except.ok.inj (h₁.symm.trans h₂))
  obtain ⟨⟨others, e₃⟩, h₃, hrest⟩ := exists_of_bind_eq_ok h
  obtain ⟨-, rfl⟩ := Prod.mk.inj (Except.ok.inj hrest)
  have hids : ∀ id ∈ e₁.registered.filter (· ≠ me), (e₁.store id).enabled = true :=
    fun id hid => hr.inv.mem_registered.1 (List.mem_filter.1 hid).1
  have hscan := (hi.advances_enter me).trans ((hi.enter me).advances_refreshMin now)
  exact hscan.trans ((hi₁.advances_drain hm hm hown h₂).trans
    (hr.inv.advances_drainAll hids (((hr.still me).enabled).trans hm) hr.lastRetired h₃))

/-! ## Acquiring -/

/-- Whoever publishes a version publishes the global one. -/
theorem advances_acquireIn (hi : e.Inv) {answer : Except Status Handle}
    (h : e.acquireIn me me = .ok (answer, e')) : e.Advances e' := by
  have hi' := hi.acquireIn h
  have he := (hi.enabled_enter me me).2 (.inl rfl)
  have hstore := store_put ((hi.enter me).owned me he).2
  refine (hi.advances_enter me).trans ?_
  rw [hi.acquireIn_eq] at h
  split at h
  · cases h
    refine (hi.enter me).advances_of_still hi' rfl rfl (fun id => ?_) (Nat.le_refl _)
    rw [hstore]
    split
    · next hid => exact hid ▸ .refl _
    · exact .refl _
  · cases h
    refine (hi.enter me).advances hi' rfl rfl (fun id => ?_) (fun id v hp => ?_) (Nat.le_refl _)
    · rw [hstore]
      split
      · next hid => exact hid ▸ rfl
      · rfl
    · rw [hstore] at hp
      split at hp
      · simp only [Store.publish] at hp
        split at hp
        · simp at hp
        · exact .inr (by simp [Option.some.inj hp])
      · exact .inl hp

theorem advances_acquire (hi : e.Inv) {who : Identity} {answer : Except Status Handle}
    (h : e.acquire who = .ok (answer, e')) : e.Advances e' := by
  cases who with
  | live id => exact hi.advances_acquireIn h
  | exiting =>
    cases h
    exact .refl _

theorem advances_exitLock (hi : e.Inv) (l : SpinLock Unit) : e.Advances { e with exitLock := l } :=
  hi.advances_of_eq rfl rfl rfl rfl rfl

theorem advances_pin (hi : e.Inv) {who : Identity} {answer : Pin}
    (h : e.pin who = .ok (answer, e')) : e.Advances e' := by
  obtain ⟨hsame, -⟩ | ⟨l, l', e₁, acquired, h₁, rfl, -⟩ := pin_eq_ok h
  · exact hsame ▸ .refl e
  · have hi₁ : ({ e with exitLock := l } : Epoch ι).Inv := hi.congr rfl rfl (Nat.le_refl _)
    exact ((hi.advances_exitLock l).trans (hi₁.advances_acquireIn h₁)).trans
      ((hi₁.acquireIn h₁).advances_exitLock l')

/-! ## Releasing -/

/-- Giving a handle up, a thread publishes nothing new. -/
theorem advances_giveUp (hi : e.Inv) {sequence : UInt32} (h : e.GivesUp me sequence e') :
    e.Advances e' := by
  refine (hi.advances_enter me).trans ((hi.enter me).advances h.inv h.storeCount h.cachedMin
    h.enabled (fun id v hp => ?_) ((version_enter e me).trans_le h.turnover.version_le))
  rw [h.published] at hp
  split at hp
  · cases hp
  · exact .inl ((hi.published_enter me id).trans hp)

/-- What holds of an epoch and of all that an operation can turn it into holds of what it leaves. -/
theorem of_allOrNothing {β : Type} {P : Epoch ι → Prop} {x : Except Violation (β × Epoch ι)}
    (h : P e) (hok : ∀ b e', x = .ok (b, e') → P e') : P (e.allOrNothing x).2 := by
  cases x with
  | error v => exact h
  | ok after => exact hok _ _ rfl

theorem advances_reclaim (hi : e.Inv) (hm : (e.store me).enabled = true) (now : Int64) :
    e.Advances (e.reclaim me me now).2 := by
  unfold Epoch.reclaim
  refine of_allOrNothing (.refl e) fun labels e' h => ?_
  split at h
  · obtain ⟨⟨version, e₁⟩, hv, hdrain⟩ := exists_of_bind_eq_ok h
    have hscan := hi.advances_minVersion hv
    obtain ⟨⟨least, at?, rfl⟩, -⟩ := hi.minVersion hv
    have hi₁ : ({ e with cachedMin := least, cachedAt := at? } : Epoch ι).Inv :=
      hi.congr rfl rfl (Nat.le_refl _)
    exact hscan.trans (hi₁.advances_drain hm hm (fun h => absurd rfl h) hdrain)
  · obtain ⟨limit, -, h⟩ := exists_of_bind_eq_ok h
    split at h
    · exact hi.advances_retire h
    · cases h
      exact .refl _

theorem advances_release (hi : e.Inv) (me : Nat) (h : Handle) (now : Int64) :
    e.Advances (e.release me h now).2 := by
  by_cases ht : me = h.tid
  · obtain ⟨tid, sequence⟩ := h
    obtain rfl : me = tid := ht
    obtain ⟨e₁, h₁, hgive⟩ := hi.giveUp me sequence
    rw [release_of_giveUp h₁]
    exact (hi.advances_giveUp hgive).trans (hgive.inv.advances_reclaim (hgive.registers hi) now)
  · rw [release_of_ne hi ht]
    exact hi.advances_enter _

theorem advances_unpin (hi : e.Inv) (me : Nat) (g : Guard) (now : Int64) :
    e.Advances (e.unpin me g now).2 := by
  obtain ⟨l, hunpin⟩ := exists_exitLock_unpin e me g now
  rw [hunpin]
  exact (hi.advances_release me g.handle now).trans ((hi.release me g.handle now).advances_exitLock l)

end Inv

end Epoch

end BackoffStack
