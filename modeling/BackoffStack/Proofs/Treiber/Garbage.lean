/-
The garbage of a stack is bounded.

A pop has nothing published any more when it frees nodes, and neither has anybody else. So if more nodes
wait in its store than the threshold allows, that store is emptied, as long as the version it is drained to
is not one that was kept from an earlier look: where the cache time is not positive and the clock does not
go backwards, none is. The other stores were left within the threshold by earlier pops, so that all
nodes together never call for more (`Epoch.Tidy.reclaim`). Hence the bounds hold between any two operations
(`TreiberScenario.garbage_bounded`).
-/
import BackoffStack.Proofs.Hazard.Headway
import BackoffStack.Proofs.Treiber.Ownership

namespace BackoffStack

namespace Epoch

variable {ι : Type} {e e' e'' : Epoch ι} {id me : Nat} {now : Int64} {nodes : List (Node ι)}
  {added freed : List (Waiting ι)}

/-! ## Operations that free nothing -/

/-- The limits of an epoch, the minimum that it keeps, and what waits in each store are the same. -/
structure Steady (e e' : Epoch ι) : Prop where
  threshold : e'.threshold = e.threshold
  cacheTime : e'.cacheTime = e.cacheTime
  cachedMin : e'.cachedMin = e.cachedMin
  cachedAt : e'.cachedAt = e.cachedAt
  waiting : ∀ id, (e'.store id).waiting = (e.store id).waiting

theorem Steady.trans (h : e.Steady e') (h' : e'.Steady e'') : e.Steady e'' where
  threshold := h'.threshold.trans h.threshold
  cacheTime := h'.cacheTime.trans h.cacheTime
  cachedMin := h'.cachedMin.trans h.cachedMin
  cachedAt := h'.cachedAt.trans h.cachedAt
  waiting id := (h'.waiting id).trans (h.waiting id)

theorem steady_exitLock (e : Epoch ι) (l : SpinLock Unit) : e.Steady { e with exitLock := l } :=
  ⟨rfl, rfl, rfl, rfl, fun _ => rfl⟩

theorem steady_put {s : Store ι} (hid : id / segmentSize < e.stores.count)
    (hw : s.waiting = (e.store id).waiting) : e.Steady (e.put id s) := by
  refine ⟨rfl, rfl, rfl, rfl, fun j => ?_⟩
  rw [store_put hid]
  split
  · next h => rw [h, hw]
  · rfl

namespace Inv

theorem steady_enter (hi : e.Inv) (id : Nat) : e.Steady (e.enter id) := by
  refine ⟨?_, ?_, ?_, ?_, hi.waiting_store_enter id⟩ <;>
    (unfold Epoch.enter; dsimp only; split <;> rfl)

theorem steady_acquireIn (hi : e.Inv) {answer : Except Status Handle}
    (h : e.acquireIn me me = .ok (answer, e')) : e.Steady e' := by
  have hid := ((hi.enter me).owned me ((hi.enabled_enter me me).2 (.inl rfl))).2
  rw [hi.acquireIn_eq] at h
  split at h <;> cases h <;> exact (hi.steady_enter me).trans (steady_put hid rfl)

theorem steady_pin (hi : e.Inv) {who : Identity} {answer : Pin}
    (h : e.pin who = .ok (answer, e')) : e.Steady e' := by
  obtain ⟨hsame, -⟩ | ⟨l, l', e₁, acquired, h₁, rfl, -⟩ := pin_eq_ok h
  · exact hsame ▸ steady_exitLock e e.exitLock
  · have hi₁ : ({ e with exitLock := l } : Epoch ι).Inv := hi.congr rfl rfl (Nat.le_refl _)
    exact ((steady_exitLock e l).trans (hi₁.steady_acquireIn h₁)).trans (steady_exitLock e₁ l')

theorem steady_giveUp (hi : e.Inv) {sequence : UInt32} (h : e.giveUp me ⟨me, sequence⟩ = .ok e') :
    e.Steady e' := by
  have hid := ((hi.enter me).owned me ((hi.enabled_enter me me).2 (.inl rfl))).2
  rw [hi.giveUp_eq] at h
  cases h
  refine (hi.steady_enter me).trans (steady_put hid ?_)
  split <;> rfl

end Inv

/-! ## All nodes that wait -/

/-- Stores among which are all that hold nodes. -/
theorem waiting_perm_flatMap {ids : List Nat} (hd : ids.Nodup)
    (hr : ∀ id ∈ ids, id / segmentSize < e.stores.count)
    (hall : ∀ id, ∀ w ∈ (e.store id).waiting, id ∈ ids) :
    e.waiting.Perm (ids.flatMap fun id => (e.store id).waiting) := by
  induction ids generalizing e with
  | nil =>
    refine .of_eq (List.eq_nil_iff_forall_not_mem.2 fun w hw => ?_)
    obtain ⟨id, hid⟩ := exists_store_of_mem_waiting hw
    exact absurd (hall id w hid) (by simp)
  | cons id ids ih =>
    obtain ⟨hnot, hd⟩ := List.nodup_cons.1 hd
    have hlt := hr id (List.mem_cons_self ..)
    have hstore := store_put (e := e) hlt {}
    have hrest : (e.put id {}).waiting.Perm
        (ids.flatMap fun j => ((e.put id {}).store j).waiting) := by
      refine ih hd (fun j hj => ?_) fun j w hw => ?_
      · rw [count_put]
        exact hr j (List.mem_cons_of_mem _ hj)
      · rw [hstore] at hw
        split at hw
        · cases hw
        · next hne => exact (List.mem_cons.1 (hall j w hw)).resolve_left hne
    have hsame : (ids.flatMap fun j => ((e.put id {}).store j).waiting) =
        ids.flatMap fun j => (e.store j).waiting := by
      refine List.flatMap_congr fun j hj => ?_
      rw [hstore, if_neg (by rintro rfl; exact hnot hj)]
    rw [List.flatMap_cons, ← hsame]
    exact (waiting_perm_store hlt).trans (hrest.append_left _)

/-- All nodes that wait are in stores on the list. -/
theorem Inv.waiting_perm_registered (hi : e.Inv) :
    e.waiting.Perm (e.registered.flatMap fun id => (e.store id).waiting) := by
  obtain ⟨-, hd, hm⟩ := hi.registered_spec
  refine waiting_perm_flatMap hd (fun id hid => (hi.owned id ((hm id).1 hid)).2) fun id w hw => ?_
  by_contra hnot
  rw [hm, Bool.not_eq_true] at hnot
  rw [hi.blank id hnot] at hw
  cases hw

theorem length_flatMap_le {β γ : Type} {f : β → List γ} {n : Int}
    (h : ∀ b, ((f b).length : Int) ≤ n) (bs : List β) :
    ((bs.flatMap f).length : Int) ≤ bs.length * n := by
  induction bs with
  | nil => simp
  | cons b bs ih =>
    have hb := h b
    rw [List.flatMap_cons, List.length_append, List.length_cons]
    push_cast
    rw [Int.add_mul, Int.one_mul]
    omega

/-- Where no store holds more than `n` nodes, all together hold at most `n` for each store. -/
theorem Inv.length_waiting_le (hi : e.Inv) {n : Int}
    (h : ∀ id, ((e.store id).waiting.length : Int) ≤ n) :
    (e.waiting.length : Int) ≤ e.registered.length * n := by
  rw [hi.waiting_perm_registered.length_eq]
  exact length_flatMap_le h _

/-! ## Freeing by the threshold -/

/-- An epoch whose nodes have no drop functions, whose counters are right, and whose kept minimum is no
later than now, with limits under which it is never used. -/
structure Tidy (e : Epoch ι) (now : Int64) : Prop where
  inv : e.Inv
  bare : ∀ id, ∀ w ∈ (e.store id).waiting, w.node.onFree = []
  tallied : e.Tallied
  total : e.waitingCount = e.waiting.length
  counted : e.Counted
  threshold : 0 ≤ e.threshold
  cacheTime : e.cacheTime ≤ 0
  past : e.cachedMin ≠ 0 → e.cachedAt ≤ now
  /-- The time at which a minimum gets too old fits a word, whether it is kept already or is from now. -/
  fits : FitsWord (now.toInt + e.cacheTime.toInt)
  keptFits : e.cachedMin ≠ 0 → FitsWord (e.cachedAt.toInt + e.cacheTime.toInt)

/-- No store but perhaps that of `me` holds more nodes than the threshold allows. -/
def FullBut (e : Epoch ι) (me : Nat) : Prop :=
  ∀ id, id ≠ me → ((e.store id).waiting.length : Int) ≤ e.threshold.toInt

/-- No store holds more nodes than the threshold allows. -/
def Within (e : Epoch ι) : Prop :=
  ∀ id, ((e.store id).waiting.length : Int) ≤ e.threshold.toInt

theorem Steady.within (h : e.Steady e') (hw : e.Within) : e'.Within := by
  intro id
  rw [h.waiting, h.threshold]
  exact hw id

theorem Turnover.total (h : e.Turnover added freed e') (ht : e.waitingCount = e.waiting.length) :
    e'.waitingCount = e'.waiting.length := by
  have hlength := h.kept.length_eq
  simp only [List.length_append] at hlength
  rw [h.count, ht]
  omega

namespace Tidy

theorem new {threshold cacheTime now : Int64} (ht : 0 ≤ threshold) (hc : cacheTime ≤ 0)
    (hfits : FitsWord (now.toInt + cacheTime.toInt)) :
    ({ threshold, cacheTime } : Epoch ι).Tidy now where
  inv := .new ..
  bare id := by
    rw [show ({ threshold, cacheTime } : Epoch ι).store id = {} from SegmentTable.get_new id]
    exact fun w hw => nomatch hw
  tallied := (Booked.new threshold cacheTime).tallied
  total := rfl
  counted := rfl
  threshold := ht
  cacheTime := hc
  past h := absurd rfl h
  fits := hfits
  keptFits h := absurd rfl h

theorem later (h : e.Tidy now) {now' : Int64} (hle : now ≤ now') : e.Tidy now' :=
  { h with
    past := fun hm => Int64.le_trans (h.past hm) hle
    fits := fitsWord_add_of_le (Int64.le_iff_toInt_le.1 hle) (Int64.le_iff_toInt_le.1 h.cacheTime)
      h.fits.1 }

theorem steady (h : e.Tidy now) (hs : e.Steady e') (hi : e'.Inv) (ht : e.Turnover [] [] e')
    (ha : e.Advances e') : e'.Tidy now where
  inv := hi
  bare id w hw := h.bare id w (hs.waiting id ▸ hw)
  tallied := ht.tallied h.tallied
  total := ht.total h.total
  counted := ha.counted h.counted
  threshold := hs.threshold ▸ h.threshold
  cacheTime := hs.cacheTime ▸ h.cacheTime
  past := by
    rw [hs.cachedMin, hs.cachedAt]
    exact h.past
  fits := hs.cacheTime ▸ h.fits
  keptFits := by
    rw [hs.cachedMin, hs.cachedAt, hs.cacheTime]
    exact h.keptFits

theorem pin (h : e.Tidy now) {who : Identity} {answer : Pin} (hp : e.pin who = .ok (answer, e')) :
    e'.Tidy now :=
  h.steady (h.inv.steady_pin hp) (h.inv.pin hp) (h.inv.turnover_pin hp).1 (h.inv.advances_pin hp)

theorem exitLock (h : e.Tidy now) (l : SpinLock Unit) :
    ({ e with exitLock := l } : Epoch ι).Tidy now :=
  h.steady (steady_exitLock e l) (h.inv.congr rfl rfl (Nat.le_refl _)) (.of_eq rfl rfl rfl)
    (h.inv.advances_exitLock l)

theorem giveUp (h : e.Tidy now) {sequence : UInt32} (hg : e.giveUp me ⟨me, sequence⟩ = .ok e')
    (hgives : e.GivesUp me sequence e') : e'.Tidy now :=
  h.steady (h.inv.steady_giveUp hg) hgives.inv hgives.turnover (h.inv.advances_giveUp hgives)

theorem addAll (h : e.Tidy now) (hm : (e.store me).enabled = true)
    (hn : ∀ n ∈ nodes, n.onFree = []) (ha : e.addAll me nodes = .ok e') :
    e'.Tidy now ∧ (e.Within → e'.FullBut me) := by
  obtain ⟨e₁, added, h₁, hq, hadded⟩ := h.inv.addAll hm nodes
  obtain rfl : e₁ = e' := Except.ok.inj (h₁.symm.trans ha)
  have hfields := h.inv.fields_addAll hm ha
  have hcount : e₁.storeCount = e.storeCount := by rw [hfields]
  have hmin : e₁.cachedMin = e.cachedMin := by rw [hfields]
  have hadvances := h.inv.advances_of_still hq.inv hcount hmin hq.stills hq.turnover.version_le
  refine ⟨⟨hq.inv, fun id w hw => ?_, hq.turnover.tallied h.tallied, hq.turnover.total h.total,
    hadvances.counted h.counted, ?_, ?_, ?_, ?_, ?_⟩, fun hw id hid => ?_⟩
  · by_cases hid : id = me
    · subst hid
      rw [hq.mine, List.mem_append, List.mem_reverse] at hw
      rcases hw with hw | hw
      · exact hn _ (hadded ▸ List.mem_map_of_mem hw)
      · exact h.bare id w hw
    · exact h.bare id w (hq.others id hid ▸ hw)
  · rw [hfields]
    exact h.threshold
  · rw [hfields]
    exact h.cacheTime
  · rw [hfields]
    exact h.past
  · rw [hfields]
    exact h.fits
  · rw [hfields]
    exact h.keptFits
  · rw [hq.others id hid, hfields]
    exact hw id

/-- A minimum that was kept is not used: while nothing is published, the version to drain to is the global
one. -/
theorem minVersion_eq (h : e.Tidy now) (hp : ∀ id, (e.store id).published = none) :
    e.minVersion now = .ok (e.version, (e.refreshMin now).2) := by
  have holdest : e.oldestVersion = e.version := by
    rcases h.inv.oldestVersion_isLeast.1 with hv | ⟨id, -, hv⟩
    · exact hv
    · rw [hp] at hv
      cases hv
  have hrefresh : e.refreshMin now = (e.version, (e.refreshMin now).2) := Prod.ext holdest rfl
  unfold minVersion
  by_cases hm : e.cachedMin = 0
  · rw [if_pos hm, ← hrefresh]
  · have hold : ¬ now.toInt < e.cachedAt.toInt + e.cacheTime.toInt := by
      have hpast := Int64.le_iff_toInt_le.1 (h.past hm)
      have hcache : e.cacheTime.toInt ≤ 0 := Int64.le_iff_toInt_le.1 h.cacheTime
      omega
    rw [if_neg hm, checked, if_pos (h.keptFits hm), ← hrefresh]
    exact congrArg Except.ok (if_neg hold)

theorem refreshMin (h : e.Tidy now) : (e.refreshMin now).2.Tidy now where
  inv := h.inv.congr rfl rfl (Nat.le_refl _)
  bare := h.bare
  tallied := h.tallied
  total := h.total
  counted := (h.inv.advances_refreshMin now).counted h.counted
  threshold := h.threshold
  cacheTime := h.cacheTime
  past _ := Int64.le_refl _
  fits := h.fits
  keptFits _ := h.fits

theorem drain (h : e.Tidy now) (hm : (e.store me).enabled = true) :
    ∃ labels e', e.drain me me me e.version = .ok (labels, e') ∧ e' = { e with
      stores := e'.stores
      waitingCount := e'.waitingCount } ∧
      ∀ id, (e'.store id).waiting = if id = me then [] else (e.store id).waiting := by
  have hp := (h.inv.fresh me).parts_drain e.version
  have hbare : (((e.store me).drain e.version).freed.map (·.node)).flatMap (·.onFree) = [] := by
    rw [List.flatMap_map]
    refine List.flatMap_eq_nil_iff.2 fun w hw => h.bare me w ?_
    exact hp.all.mem_iff.2 (List.mem_append_left _ hw)
  rw [drain_eq (h.inv.owned me hm).1]
  dsimp only
  rw [hbare]
  refine ⟨_, _, rfl, rfl, fun id => ?_⟩
  show ((e.part me me e.version).store id).waiting = _
  rw [store_part h.inv hm hm]
  by_cases hid : id = me
  · rw [if_pos hid, if_pos rfl, if_pos hid]
    refine List.eq_nil_iff_forall_not_mem.2 fun w hw => ?_
    have hle := h.inv.old me w (hp.all.mem_iff.2 (List.mem_append_right _ hw))
    rcases mem_receive.1 hw with hw | hw
    · exact absurd (hp.kept w hw) (Nat.not_lt.2 hle)
    · exact absurd (hp.clean w hw) (Nat.not_lt.2 hle)
  · rw [if_neg hid, if_neg hid, if_neg hid]

theorem reclaim_of_lt (h : e.Tidy now) (hm : (e.store me).enabled = true)
    (hp : ∀ id, (e.store id).published = none) (hfull : e.threshold.toInt < (e.store me).count) :
    ∃ labels e', e.reclaim me me now = (.ok labels, e') ∧ e' = { e with
      stores := e'.stores
      waitingCount := e'.waitingCount
      cachedMin := e.oldestVersion
      cachedAt := now } ∧
      ∀ id, (e'.store id).waiting = if id = me then [] else (e.store id).waiting := by
  obtain ⟨labels, e', hdrain, hfields, hwaiting⟩ := h.refreshMin.drain hm
  refine ⟨labels, e', ?_, hfields, hwaiting⟩
  rw [Epoch.reclaim_of_lt hfull, h.minVersion_eq hp]
  exact congrArg e.allOrNothing hdrain

/-- Where no store is over the threshold, all of them together are not, and nothing happens. -/
theorem reclaim_of_within (h : e.Tidy now) (hw : e.Within) : (e.reclaim me me now).2 = e := by
  have hcounts := h.tallied me
  have hfull : ¬ e.threshold.toInt < (e.store me).count := by
    unfold Store.Tallied at hcounts
    rw [hcounts]
    exact Int.not_lt.2 (hw me)
  have hall : ¬ e.storeCount * e.threshold.toInt < e.waitingCount := by
    have hle := h.inv.length_waiting_le hw
    rw [h.total, h.counted]
    exact Int.not_lt.2 hle
  rw [Epoch.reclaim_of_le hfull, checked]
  split
  · exact congrArg (fun x => (e.allOrNothing x).2) (if_neg hall)
  · rfl

/-- Freeing by the threshold brings all stores within it, once nothing is published any more. -/
theorem reclaim (h : e.Tidy now) (hm : (e.store me).enabled = true)
    (hp : ∀ id, (e.store id).published = none) (hf : e.FullBut me) :
    (e.reclaim me me now).2.Tidy now ∧ (e.reclaim me me now).2.threshold = e.threshold ∧
      (e.reclaim me me now).2.Within := by
  obtain ⟨taken, gone, answer, e₁, h₁, hr⟩ := h.inv.reclaim hm now
  have hadvances := h.inv.advances_reclaim hm now
  have hcounts := h.tallied me
  by_cases hfull : e.threshold.toInt < (e.store me).count
  · obtain ⟨labels, e', h₂, hfields, hwaiting⟩ := h.reclaim_of_lt hm hp hfull
    obtain ⟨-, rfl⟩ := Prod.mk.inj (h₁.symm.trans h₂)
    rw [h₁] at hadvances ⊢
    refine ⟨⟨hr.inv, fun id w hw => ?_, hr.calm.frees.turnover.tallied h.tallied,
      hr.calm.frees.turnover.total h.total, hadvances.counted h.counted, ?_, ?_, ?_, ?_, ?_⟩, ?_,
      fun id => ?_⟩
    · rw [hwaiting] at hw
      split at hw
      · cases hw
      · exact h.bare id w hw
    · rw [hfields]
      exact h.threshold
    · rw [hfields]
      exact h.cacheTime
    · rw [hfields]
      exact fun _ => Int64.le_refl _
    · rw [hfields]
      exact h.fits
    · rw [hfields]
      exact fun _ => h.fits
    · rw [hfields]
    · rw [hwaiting, hfields]
      split
      · exact Int64.le_iff_toInt_le.1 h.threshold
      · next hid => exact hf id hid
  · have hwithin : e.Within := by
      intro id
      by_cases hid : id = me
      · unfold Store.Tallied at hcounts
        rw [hid]
        omega
      · exact hf id hid
    rw [h.reclaim_of_within hwithin]
    exact ⟨h, rfl, hwithin⟩

end Tidy

/-- Whoever drops its guard while nobody else has published a version leaves all stores within the
threshold. -/
theorem Tidy.unpin {who : Identity} {g : Guard} (h : e.Tidy now) (hp : e.Pinned who g)
    (hf : e.FullBut who.id) :
    (e.unpin who.id g now).2.Tidy now ∧ (e.unpin who.id g now).2.threshold = e.threshold ∧
      (e.unpin who.id g now).2.Within := by
  obtain ⟨e₁, h₁, hgive⟩ := h.inv.giveUp who.id (e.store who.id).sequence
  have hs := h.inv.steady_giveUp h₁
  have hm := hgive.registers h.inv
  have hnone : ∀ id, (e₁.store id).published = none := by
    intro id
    rw [hgive.published, h.inv.enter_eq hp.enabled]
    by_cases hid : id = who.id
    · rw [if_pos ⟨hid, rfl⟩]
    · rw [if_neg (fun h => hid h.1), hp.others id hid]
  have hf₁ : e₁.FullBut who.id := by
    intro id hid
    rw [hs.waiting, hs.threshold]
    exact hf id hid
  obtain ⟨htidy, hthreshold, hwithin⟩ := (h.giveUp h₁ hgive).reclaim hm hnone hf₁
  have hrelease : e.release who.id g.handle now = e₁.reclaim who.id who.id now := by
    rw [hp.handle]
    exact release_of_giveUp h₁
  obtain ⟨l, hunpin⟩ := exists_exitLock_unpin e who.id g now
  rw [hunpin, hrelease]
  exact ⟨htidy.exitLock l, hthreshold.trans hs.threshold, (steady_exitLock _ l).within hwithin⟩

/-- How much garbage an epoch keeps. -/
structure Bounded (e : Epoch ι) (threshold : Int) : Prop where
  /-- In no store wait more nodes than the threshold allows, -/
  store : ∀ id, ((e.store id).waiting.length : Int) ≤ threshold
  /-- by the store's own counter too. -/
  counts : ∀ id, (e.store id).count = (e.store id).waiting.length
  /-- All nodes that wait are counted, and so are all registered stores. -/
  total : e.waitingCount = e.waiting.length
  stores : e.storeCount = e.registered.length
  /-- All stores together hold at most as many nodes as the threshold allows for each. -/
  all : e.waitingCount ≤ e.storeCount * threshold

theorem Tidy.bounded (h : e.Tidy now) (hw : e.Within) : e.Bounded e.threshold.toInt where
  store := hw
  counts := h.tallied
  total := h.total
  stores := h.counted
  all := by
    rw [h.total, h.counted]
    exact h.inv.length_waiting_le hw

end Epoch

/-! ## Runs -/

namespace TreiberScenario

variable {α : Type} {s : State α}

/-- What a move sets the wall clock to, if it does. -/
def Move.wall? : Move α → Option Int64
  | .wall micros => some micros
  | _ => none

/-- Between two operations nobody is at work, and no store is over the threshold. -/
structure Kept (s : State α) (threshold : Int64) : Prop where
  ready : s.stack.Ready
  tidy : s.stack.epoch.Tidy s.wall
  within : s.stack.epoch.Within
  limit : s.stack.epoch.threshold = threshold

namespace Kept

variable {threshold : Int64}

theorem tryPush (h : Kept s threshold) (v : α) : Kept (tryPush s v).2.2 threshold := by
  unfold TreiberScenario.tryPush TreiberStack.tryPush
  cases s.stack.contended with
  | true => exact ⟨⟨h.ready.inv, h.ready.idle⟩, h.tidy, h.within, h.limit⟩
  | false => exact ⟨⟨h.ready.inv, h.ready.idle⟩, h.tidy, h.within, h.limit⟩

/-- A pop queues one node at most, and makes good for it. -/
theorem tryPop (h : Kept s threshold) (t : Nat) : Kept (tryPop s t).2.2 threshold := by
  unfold TreiberScenario.tryPop
  cases hc : s.stack.contended with
  | true => exact h
  | false =>
    obtain ⟨g, e₁, e₂, e₃, added, freed, ended, s', hpop, hst⟩ :=
      h.ready.tryPop_stages hc (s.threads.identify t).1 s.wall
    have hbare : ∀ n ∈ s.stack.topNodes, n.onFree = [] := by
      intro n hn
      obtain ⟨cell, -, rfl⟩ := List.mem_map.1 hn
      rfl
    have hpinned := h.ready.inv.steady_pin hst.pins
    obtain ⟨htidy, hfull⟩ := (h.tidy.pin hst.pins).addAll hst.pinned.enabled hbare hst.queues
    have hlimit : e₂.threshold = e₁.threshold := by
      rw [hst.pinned.inv.fields_addAll hst.pinned.enabled hst.queues]
    obtain ⟨htidy', hthreshold, hwithin⟩ := htidy.unpin hst.queued (hfull (hpinned.within h.within))
    rw [hst.drops] at htidy' hthreshold hwithin
    rw [if_neg (by simp)]
    dsimp only
    rw [hpop]
    exact ⟨⟨hst.unpins.inv, hst.unpins.idle⟩, htidy', hwithin,
      hthreshold.trans (hlimit.trans (hpinned.threshold.trans h.limit))⟩

theorem act (h : Kept s threshold) (t : Nat) (action : Action α) :
    Kept (act s t action).2.2 threshold := by
  cases action with
  | push v =>
    dsimp only [TreiberScenario.act]
    split
    · exact h
    · exact h.tryPush v
  | pop =>
    dsimp only [TreiberScenario.act]
    split
    · exact h
    · exact h.tryPop t
  | tryPush v => exact h.tryPush v
  | tryPop => exact h.tryPop t

theorem move (h : Kept s threshold) (m : Move α) (hw : ∀ micros ∈ m.wall?, s.wall ≤ micros) :
    Kept (s.move m) threshold := by
  cases m with
  | act t action => exact h.act t action
  | contend on => exact ⟨⟨h.ready.inv, h.ready.idle⟩, h.tidy, h.within, h.limit⟩
  | wall micros => exact ⟨h.ready, h.tidy.later (hw micros rfl), h.within, h.limit⟩
  | leave t => exact ⟨h.ready, h.tidy, h.within, h.limit⟩
  | finish t => exact ⟨h.ready, h.tidy, h.within, h.limit⟩

end Kept

theorem wall_act (s : State α) (t : Nat) (action : Action α) : (act s t action).2.2.wall = s.wall := by
  have hpop : (tryPop s t).2.2.wall = s.wall := by
    unfold tryPop
    dsimp only
    split
    · rfl
    · split <;> rfl
  have hpush : ∀ v, (tryPush s v).2.2.wall = s.wall := by
    intro v
    unfold tryPush
    split <;> rfl
  cases action with
  | push v =>
    dsimp only [act]
    split
    · rfl
    · exact hpush v
  | pop =>
    dsimp only [act]
    split
    · rfl
    · exact hpop
  | tryPush v => exact hpush v
  | tryPop => exact hpop

theorem wall_move (s : State α) (m : Move α) : (s.move m).wall = m.wall?.getD s.wall := by
  cases m with
  | act t action => exact wall_act s t action
  | contend on => rfl
  | wall micros => rfl
  | leave t => rfl
  | finish t => rfl

theorem Kept.after {threshold : Int64} (h : Kept s threshold) (moves : List (Move α))
    (hw : (s.wall :: moves.filterMap Move.wall?).Pairwise (· ≤ ·)) :
    Kept (s.after moves) threshold := by
  induction moves generalizing s with
  | nil => exact h
  | cons m moves ih =>
    have hm := wall_move s m
    cases hwall : m.wall? with
    | none =>
      rw [hwall] at hm
      rw [List.filterMap_cons_none hwall] at hw
      exact ih (h.move m (by simp [hwall])) (hm ▸ hw)
    | some micros =>
      rw [hwall] at hm
      rw [List.filterMap_cons_some hwall] at hw
      obtain ⟨hfirst, hrest⟩ := List.pairwise_cons.1 hw
      refine ih (h.move m fun x hx => hfirst x ?_) (hm ▸ hrest)
      rw [hwall] at hx
      exact Option.some.inj hx ▸ List.mem_cons_self ..

/-- Whatever threads do with a new stack whose threshold is not negative and whose minimum is never kept,
in whatever order, under a clock that never goes backwards: after every move no store holds more nodes than
the threshold allows, and all stores together no more than that for each. The clock may start anywhere as
long as the cache time can be added to what it shows, as it can to any time from 1970 on (`fitsWord_add`). -/
theorem garbage_bounded {threshold cacheTime wall : Int64} (hthreshold : 0 ≤ threshold)
    (hcache : cacheTime ≤ 0) (hfits : FitsWord (wall.toInt + cacheTime.toInt)) {moves : List (Move α)}
    (hclock : (wall :: moves.filterMap Move.wall?).Pairwise (· ≤ ·)) :
    (({ stack := .new threshold cacheTime, wall } : State α).after
      moves).stack.epoch.Bounded threshold.toInt := by
  have htidy : ({ threshold, cacheTime } : Epoch (Cell α)).Tidy wall := .new hthreshold hcache hfits
  have hwithin : ({ threshold, cacheTime } : Epoch (Cell α)).Within := by
    intro id
    rw [show ({ threshold, cacheTime } : Epoch (Cell α)).store id = {} from SegmentTable.get_new id]
    exact Int64.le_iff_toInt_le.1 hthreshold
  have hnew : Kept ({ stack := .new threshold cacheTime, wall } : State α) threshold :=
    ⟨.new threshold cacheTime, htidy, hwithin, rfl⟩
  have hkept := hnew.after moves hclock
  have hbounded := hkept.tidy.bounded hkept.within
  rwa [hkept.limit] at hbounded

/-- Two threads take turns, one of them also on its way out, where a store may keep one node. -/
theorem two_threads_bounded :
    (0 : Int64) ≤ 1 ∧ (0 : Int64) ≤ 0 ∧ FitsWord ((0 : Int64).toInt + (0 : Int64).toInt) ∧
      (0 :: ([.act 1 (.push 7), .act 2 (.push 8), .act 2 .pop, .wall 5, .act 1 .pop, .leave 1,
        .act 1 (.push 9), .act 1 .tryPop, .finish 1] : List (Move Nat)).filterMap
          Move.wall?).Pairwise (· ≤ ·) ∧
      (({ stack := .new 1 0, wall := 0 } : State Nat).after
        [.act 1 (.push 7), .act 2 (.push 8), .act 2 .pop, .wall 5, .act 1 .pop, .leave 1,
          .act 1 (.push 9), .act 1 .tryPop, .finish 1]).stack.epoch.Bounded (1 : Int64).toInt :=
  ⟨by decide, by decide, fitsWord_add (by decide) (by decide), by decide,
    garbage_bounded (by decide) (by decide) (fitsWord_add (by decide) (by decide)) (by decide)⟩

/-- Under a clock that shows a time before 1970 the least cache time cannot be added to it. The first pop
leaves a minimum behind, with the time; the second one breaks off where it looks whether that minimum may
still be used, and its node stays. -/
theorem not_always_bounded : ¬ ∀ (threshold cacheTime wall : Int64) (moves : List (Move Nat)),
    0 ≤ threshold → cacheTime ≤ 0 → (wall :: moves.filterMap Move.wall?).Pairwise (· ≤ ·) →
      (({ stack := .new threshold cacheTime, wall } : State Nat).after
        moves).stack.epoch.Bounded threshold.toInt := by
  intro h
  have hbounded := h 0 Int64.minValue (-1000000)
    [.act 1 (.push 1), .act 1 (.push 2), .act 1 .pop, .act 1 .pop] (by decide) (by decide) (by decide)
  have hstore := hbounded.store 1
  revert hstore
  decide

end TreiberScenario

end BackoffStack
