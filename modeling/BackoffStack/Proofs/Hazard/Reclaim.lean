/-
Queueing and freeing nodes.

A drain parts the nodes of one store at a version: those that are not above it are freed, and their drop
functions queue further nodes under new versions; the others wait on, in the store of whoever drains.
Whatever is drained, no node is lost and none is freed twice (`Reclaimed`).
-/
import BackoffStack.Proofs.Hazard.Turnover

namespace BackoffStack

variable {ι : Type}

/-! ## One store -/

namespace Store

variable {s : Store ι} {version : Nat}

/-- What is left of a store after a drain, and what was taken out of it. -/
structure Parts (s : Store ι) (version : Nat) (d : Drained ι) : Prop where
  still : s.Still d.store
  lastRetired : d.store.lastRetired = version
  all : s.waiting.Perm (d.freed ++ (d.kept ++ d.store.waiting))
  freed : ∀ w ∈ d.freed, w.version ≤ version
  kept : ∀ w ∈ d.kept, version < w.version
  clean : d.store.Clean version
  tallied : s.Tallied → d.store.Tallied

/-- A drain that is skipped does what it would have done. -/
theorem Fresh.parts_drain (hf : s.Fresh) (version : Nat) : s.Parts version (s.drain version) := by
  unfold drain
  split
  · next h => exact ⟨.refl s, h, List.Perm.refl _, nofun, nofun, fun w hw => h ▸ hf w hw, id⟩
  · rw [sift_eq]
    have hsplit := List.filter_append_perm (fun w : Waiting ι => decide (w.version ≤ version)) s.waiting
    simp only [← decide_not, Nat.not_le] at hsplit
    refine ⟨⟨⟨rfl, rfl, rfl⟩, rfl, rfl⟩, rfl, ?_, ?_, ?_, nofun, ?_⟩
    · simpa using hsplit.symm.trans ((List.reverse_perm _).symm.append_right _)
    · intro w hw
      simp only [List.append_nil, List.mem_reverse, List.mem_filter, decide_eq_true_eq] at hw
      exact hw.2
    · intro w hw
      simp only [List.mem_filter, decide_eq_true_eq] at hw
      exact hw.2
    · intro ht
      have hlen := hsplit.length_eq
      unfold Tallied at *
      simp only [List.length_append, List.append_nil, List.length_reverse, List.length_nil] at *
      omega

end Store

namespace Epoch

variable {e e' e'' : Epoch ι} {id me version : Nat} {nodes : List (Node ι)}

/-! ## Queueing -/

/-- The thread with the id `me`, whose store is registered, has queued `added` one after the other. -/
structure Queued (e : Epoch ι) (me : Nat) (added : List (Waiting ι)) (e' : Epoch ι) : Prop where
  inv : e'.Inv
  turnover : e.Turnover added [] e'
  exitLock : e'.exitLock = e.exitLock
  others : ∀ id, id ≠ me → e'.store id = e.store id
  still : (e.store me).Still (e'.store me)
  lastRetired : (e'.store me).lastRetired ≤ (e.store me).lastRetired
  mine : (e'.store me).waiting = added.reverse ++ (e.store me).waiting

theorem Inv.queued_nil (hi : e.Inv) (me : Nat) : e.Queued me [] e :=
  ⟨hi, .refl e, rfl, fun _ _ => rfl, .refl _, Nat.le_refl _, rfl⟩

theorem Queued.trans {added added' : List (Waiting ι)} (h : e.Queued me added e')
    (h' : e'.Queued me added' e'') : e.Queued me (added ++ added') e'' where
  inv := h'.inv
  turnover := h.turnover.trans h'.turnover
  exitLock := h'.exitLock.trans h.exitLock
  others id hid := (h'.others id hid).trans (h.others id hid)
  still := h.still.trans h'.still
  lastRetired := h'.lastRetired.trans h.lastRetired
  mine := by rw [h'.mine, h.mine, List.reverse_append, List.append_assoc]

theorem Queued.stills {added : List (Waiting ι)} (h : e.Queued me added e') (id : Nat) :
    (e.store id).Still (e'.store id) := by
  by_cases hid : id = me
  · exact hid ▸ h.still
  · rw [h.others id hid]
    exact .refl _

theorem mem_receive {s : Store ι} {nodes : List (Waiting ι)} {w : Waiting ι} :
    w ∈ (s.receive nodes).waiting ↔ w ∈ nodes ∨ w ∈ s.waiting :=
  List.mem_append

theorem Inv.add_eq (hi : e.Inv) (me : Nat) (node : Node ι) : e.add me node = .ok
    { (e.enter me).put me
        { ((e.enter me).store me).receive [⟨e.version + 1, node⟩] with lastRetired := 0 } with
      version := e.version + 1
      waitingCount := (e.enter me).waitingCount + 1 } := by
  have howner := ((hi.enter me).owned me ((hi.enabled_enter me me).2 (.inl rfl))).1
  unfold Epoch.add
  dsimp only
  simp only [Store.add, Store.assertOwner, howner, version_enter, if_true]
  rfl

theorem Inv.add (hi : e.Inv) (me : Nat) (node : Node ι) : ∃ e', e.add me node = .ok e' ∧
    (e.enter me).Queued me [⟨e.version + 1, node⟩] e' := by
  have hi₁ := hi.enter me
  have he := (hi.enabled_enter me me).2 (.inl rfl)
  obtain ⟨-, hid⟩ := hi₁.owned me he
  have hv := version_enter e me
  rw [hi.add_eq]
  generalize hw : (⟨e.version + 1, node⟩ : Waiting ι) = w
  let s : Store ι := { ((e.enter me).store me).receive [w] with lastRetired := 0 }
  let e₁ : Epoch ι := { e.enter me with version := e.version + 1 }
  have hinv₁ : e₁.Inv := hi₁.congr rfl rfl (by rw [hv]; exact Nat.le_succ _)
  have hstore : ∀ j, (e₁.put me s).store j = if j = me then s else (e.enter me).store j :=
    store_put hid s
  have hinv : (e₁.put me s).Inv := by
    refine hinv₁.put he ⟨rfl, rfl, rfl⟩ (fun x hx => ?_) fun x hx => ?_
    · rcases mem_receive.1 hx with hx | hx
      · obtain rfl := List.mem_singleton.1 hx
        exact hw ▸ Nat.succ_pos _
      · exact (Nat.zero_le _).trans_lt (hi₁.fresh me x hx)
    · rcases mem_receive.1 hx with hx | hx
      · obtain rfl := List.mem_singleton.1 hx
        exact hw ▸ Nat.le_refl _
      · exact hinv₁.old me x hx
  have hme : (e₁.put me s).store me = s := (hstore me).trans (if_pos rfl)
  have hturnover : (e.enter me).Turnover [w] []
      { e₁.put me s with waitingCount := (e.enter me).waitingCount + 1 } := by
    refine ⟨by simp [← hw], by simp [e₁, Epoch.put], ?_, by simp, fun ht => ?_⟩
    · exact waiting_put hid (List.Perm.refl _)
    · exact Tallied.put (e := e₁) ht hid ((ht me).receive [w])
  refine ⟨_, rfl, hinv.congr rfl rfl (Nat.le_refl _), hturnover, rfl, fun j hj => ?_, ?_, ?_, ?_⟩
  · exact (hstore j).trans (if_neg hj)
  · exact hme.symm ▸ ⟨⟨rfl, rfl, rfl⟩, rfl, rfl⟩
  · exact (congrArg Store.lastRetired hme).trans_le (Nat.zero_le _)
  · exact (congrArg Store.waiting hme).trans rfl

theorem Inv.addAll (hi : e.Inv) (hm : (e.store me).enabled = true) (nodes : List (Node ι)) :
    ∃ e' added, e.addAll me nodes = .ok e' ∧ e.Queued me added e' ∧
      added.map (·.node) = nodes := by
  induction nodes generalizing e with
  | nil => exact ⟨e, [], rfl, hi.queued_nil me, rfl⟩
  | cons node nodes ih =>
    obtain ⟨e₁, h₁, hq₁⟩ := hi.add me node
    rw [hi.enter_eq hm] at hq₁
    obtain ⟨e₂, added, h₂, hq₂, hn⟩ := ih hq₁.inv (hq₁.still.enabled.trans hm)
    refine ⟨e₂, _, ?_, hq₁.trans hq₂, ?_⟩
    · show (e.add me node >>= fun e => e.addAll me nodes) = _
      rw [h₁]
      exact h₂
    · simp [hn]

/-- Freeing nodes queues what their drop functions hand over. -/
theorem free_eq (e : Epoch ι) (me : Nat) (nodes : List (Node ι)) :
    e.free me nodes = e.addAll me (nodes.flatMap (·.onFree)) := by
  induction nodes generalizing e with
  | nil => rfl
  | cons node nodes ih =>
    show (e.addAll me node.onFree >>= fun e => e.free me nodes) = _
    simp only [ih]
    exact List.foldlM_append.symm

/-! ## Draining -/

/-- The epoch after the store of `id` was parted at `version`: what is newer waits at the receiver. -/
def part (e : Epoch ι) (id receiver version : Nat) : Epoch ι :=
  let drained := (e.store id).drain version
  let e := e.put id drained.store
  e.put receiver ((e.store receiver).receive drained.kept)

theorem drain_eq {receiver : Nat} (ho : (e.store receiver).owner = me) :
    e.drain me id receiver version =
      (do
        let nodes := ((e.store id).drain version).freed.map (·.node)
        let e ← (e.part id receiver version).addAll me (nodes.flatMap (·.onFree))
        return (nodes.map (·.label), { e with waitingCount := e.waitingCount - nodes.length })) := by
  simp only [drain, Store.assertOwner, ho, if_true, free_eq]
  rfl

/-- What the thread with the id `me` has done by draining the stores `ids` up to a version: `freed`
nodes are gone, and their drop functions have queued `added`. -/
structure Reclaimed (e : Epoch ι) (me version : Nat) (ids : List Nat)
    (freed added : List (Waiting ι)) (e' : Epoch ι) : Prop where
  inv : e'.Inv
  turnover : e.Turnover added freed e'
  exitLock : e'.exitLock = e.exitLock
  still : ∀ id, (e.store id).Still (e'.store id)
  lastRetired : (e'.store me).lastRetired ≤ version
  clean : version ≤ e.version → ∀ id, id ∈ ids ∨ (e.store id).Clean version →
    (e'.store id).Clean version
  due : ∀ w ∈ freed, w.version ≤ version
  handed : added.map (·.node) = freed.flatMap (·.node.onFree)

theorem Inv.reclaimed_nil (hi : e.Inv) (hl : (e.store me).lastRetired ≤ version) :
    e.Reclaimed me version [] [] [] e :=
  ⟨hi, .refl e, rfl, fun _ => .refl _, hl, fun _ _ h => h.resolve_left nofun, nofun, rfl⟩

theorem Reclaimed.trans {ids ids' : List Nat} {freed added freed' added' : List (Waiting ι)}
    (h : e.Reclaimed me version ids freed added e')
    (h' : e'.Reclaimed me version ids' freed' added' e'') :
    e.Reclaimed me version (ids ++ ids') (freed ++ freed') (added ++ added') e'' where
  inv := h'.inv
  turnover := h.turnover.trans h'.turnover
  exitLock := h'.exitLock.trans h.exitLock
  still id := (h.still id).trans (h'.still id)
  lastRetired := h'.lastRetired
  clean hv id hid := by
    refine h'.clean (hv.trans h.turnover.version_le) id ?_
    rcases hid with hid | hc
    · exact (List.mem_append.1 hid).symm.imp_right fun hid => h.clean hv id (.inl hid)
    · exact .inr (h.clean hv id (.inr hc))
  due w hw := (List.mem_append.1 hw).elim (h.due w) (h'.due w)
  handed := by rw [List.map_append, h.handed, h'.handed, List.flatMap_append]

theorem store_part (hi : e.Inv) (hid : (e.store id).enabled = true)
    (hm : (e.store me).enabled = true) (version j : Nat) : (e.part id me version).store j =
      if j = me then
        (if me = id then ((e.store id).drain version).store else e.store me).receive
          ((e.store id).drain version).kept
      else if j = id then ((e.store id).drain version).store
      else e.store j := by
  have hlt := (hi.owned id hid).2
  have hlt' := (hi.owned me hm).2
  unfold part
  dsimp only
  rw [store_put (by rw [count_put]; exact hlt'), store_put hlt, store_put hlt]

/-- Parting a store keeps all in order, and loses only the nodes that are to be freed. -/
theorem Inv.part (hi : e.Inv) (hid : (e.store id).enabled = true)
    (hm : (e.store me).enabled = true) (hl : me ≠ id → (e.store me).lastRetired ≤ version) :
    (e.part id me version).Inv ∧ e.waiting.Perm
      (((e.store id).drain version).freed ++ (e.part id me version).waiting) := by
  have hp := (hi.fresh id).parts_drain version
  unfold Epoch.part
  dsimp only
  generalize (e.store id).drain version = d at hp
  have hlt := (hi.owned id hid).2
  have hold : ∀ w ∈ d.kept ++ d.store.waiting, w.version ≤ e.version := fun w hw =>
    hi.old id w (hp.all.mem_iff.2 (List.mem_append_right _ hw))
  have hi₁ : (e.put id d.store).Inv := hi.put hid hp.still.toLike
    (fun w hw => hp.lastRetired.symm ▸ hp.clean w hw)
    fun w hw => hold w (List.mem_append_right _ hw)
  have hm₁ : ((e.put id d.store).store me).enabled = true := by
    rw [store_put hlt]
    split
    · rw [hp.still.enabled, hid]
    · exact hm
  have hl₁ : ((e.put id d.store).store me).lastRetired ≤ version := by
    rw [store_put hlt]
    split
    · exact hp.lastRetired.le
    · next h => exact hl h
  refine ⟨hi₁.put hm₁ ⟨rfl, rfl, rfl⟩ ?_ ?_, ?_⟩
  · intro w hw
    rcases mem_receive.1 hw with hw | hw
    · exact hl₁.trans_lt (hp.kept w hw)
    · exact hi₁.fresh me w hw
  · intro w hw
    rcases mem_receive.1 hw with hw | hw
    · exact hold w (List.mem_append_left _ hw)
    · exact hi₁.old me w hw
  · have hfirst : ([] ++ e.waiting).Perm (d.freed ++ d.kept ++ (e.put id d.store).waiting) :=
      waiting_put hlt (by simpa using hp.all)
    have hsecond : (d.kept ++ (e.put id d.store).waiting).Perm ([] ++
        ((e.put id d.store).put me
          (((e.put id d.store).store me).receive d.kept)).waiting) :=
      waiting_put (hi₁.owned me hm₁).2 (List.Perm.refl _)
    rw [List.append_assoc] at hfirst
    exact hfirst.trans (hsecond.append_left _)

theorem Inv.still_part (hi : e.Inv) (hid : (e.store id).enabled = true)
    (hm : (e.store me).enabled = true) (j : Nat) :
    (e.store j).Still ((e.part id me version).store j) := by
  have hp := (hi.fresh id).parts_drain version
  rw [store_part hi hid hm]
  split
  · next hj =>
    subst hj
    split
    · next h =>
      subst h
      exact hp.still.trans ⟨⟨rfl, rfl, rfl⟩, rfl, rfl⟩
    · exact ⟨⟨rfl, rfl, rfl⟩, rfl, rfl⟩
  · split
    · next h => exact h ▸ hp.still
    · exact .refl _

theorem Inv.tallied_part (hi : e.Inv) (hid : (e.store id).enabled = true)
    (hm : (e.store me).enabled = true) (ht : e.Tallied) : (e.part id me version).Tallied := by
  have hd := ((hi.fresh id).parts_drain version).tallied (ht id)
  intro j
  rw [store_part hi hid hm]
  split
  · split
    · exact hd.receive _
    · exact (ht me).receive _
  · split
    · exact hd
    · exact ht j

/-- The nodes that were set apart are freed, and their drop functions add others. -/
theorem Turnover.free {freed added : List (Waiting ι)} (h : e'.Turnover added [] e'')
    (hall : e.waiting.Perm (freed ++ e'.waiting)) (hv : e'.version = e.version)
    (hc : e'.waitingCount = e.waitingCount) (ht : e.Tallied → e'.Tallied) :
    e.Turnover added freed { e'' with waitingCount := e''.waitingCount - freed.length } where
  versions := hv ▸ h.versions
  version := hv ▸ h.version
  kept := by
    calc List.Perm (added ++ e.waiting) (added ++ (freed ++ e'.waiting)) := hall.append_left _
      List.Perm _ (freed ++ (added ++ e'.waiting)) := List.perm_append_comm_assoc ..
      List.Perm _ (freed ++ e''.waiting) := h.kept.append_left _
  count := by
    rw [h.count, hc]
    simp
  tallied he := h.tallied (ht he)

theorem Inv.drain (hi : e.Inv) (hid : (e.store id).enabled = true)
    (hm : (e.store me).enabled = true) (hl : me ≠ id → (e.store me).lastRetired ≤ version) :
    ∃ freed added e', e.drain me id me version = .ok (freed.map (·.node.label), e') ∧
      e.Reclaimed me version [id] freed added e' := by
  obtain ⟨hi₁, hall⟩ := hi.part hid hm hl
  have hp := (hi.fresh id).parts_drain version
  have hsame : ∀ j, (e.store j).Still ((e.part id me version).store j) := hi.still_part hid hm
  have hstore := store_part hi hid hm version
  have hv : (e.part id me version).version = e.version := rfl
  have hlock : (e.part id me version).exitLock = e.exitLock := rfl
  have hcount : (e.part id me version).waitingCount = e.waitingCount := rfl
  have htally : e.Tallied → (e.part id me version).Tallied := hi.tallied_part hid hm
  rw [drain_eq (hi.owned me hm).1]
  generalize (e.store id).drain version = d at hp hall hstore
  generalize e.part id me version = e₁ at hi₁ hall hsame hstore hv hlock hcount htally
  -- drop functions run on the epoch as it is then, so that they add nodes newer than those parted
  obtain ⟨e₂, added, hadd, hq, hn⟩ := hi₁.addAll ((hsame me).enabled.trans hm)
    ((d.freed.map (·.node)).flatMap (·.onFree))
  have hkeeps : ∀ j, (e₁.store j).Still (e₂.store j) := hq.stills
  have hme : e₁.store me = (if me = id then d.store else e.store me).receive d.kept := by
    rw [hstore, if_pos rfl]
  refine ⟨d.freed, added, { e₂ with waitingCount := e₂.waitingCount - d.freed.length }, ?_,
    hq.inv.congr rfl rfl (Nat.le_refl _), hq.turnover.free hall hv hcount htally,
    hq.exitLock.trans hlock, fun j => (hsame j).trans (hkeeps j), hq.lastRetired.trans ?_, ?_,
    hp.freed, ?_⟩
  · simp only [hadd, List.map_map, List.length_map]
    rfl
  · rw [hme]
    show (ite (me = id) _ _ : Store ι).lastRetired ≤ version
    split
    · exact hp.lastRetired.le
    · next h => exact hl h
  · -- what waits has been added since, or was kept as too new
    intro hle j hj w hw
    by_cases hjm : j = me
    · subst hjm
      have hw' : w ∈ added.reverse ++ (e₁.store j).waiting := hq.mine ▸ hw
      rcases List.mem_append.1 hw' with hw | hw
      · exact hle.trans_lt (hv ▸ hq.turnover.later w (List.mem_reverse.1 hw))
      · rw [hme] at hw
        rcases mem_receive.1 hw with hw | hw
        · exact hp.kept w hw
        · split at hw
          · exact hp.clean w hw
          · next h => exact (hj.resolve_left fun h' => h (List.mem_singleton.1 h')) w hw
    · have hw' : w ∈ (e₁.store j).waiting := hq.others j hjm ▸ hw
      rw [hstore, if_neg hjm] at hw'
      split at hw'
      · exact hp.clean w hw'
      · next h => exact (hj.resolve_left fun h' => h (List.mem_singleton.1 h')) w hw'
  · rw [hn, List.flatMap_map]

theorem Inv.drainAll (hi : e.Inv) {ids : List Nat} (hids : ∀ id ∈ ids, (e.store id).enabled = true)
    (hm : (e.store me).enabled = true) (hl : (e.store me).lastRetired ≤ version) :
    ∃ freed added e', e.drainAll me version ids = .ok (freed.map (·.node.label), e') ∧
      e.Reclaimed me version ids freed added e' := by
  induction ids generalizing e with
  | nil => exact ⟨[], [], e, rfl, hi.reclaimed_nil hl⟩
  | cons id ids ih =>
    obtain ⟨freed, added, e₁, h₁, hr₁⟩ := hi.drain (hids id (List.mem_cons_self ..)) hm fun _ => hl
    obtain ⟨freed', added', e₂, h₂, hr₂⟩ := ih hr₁.inv
      (fun j hj => ((hr₁.still j).enabled).trans (hids j (List.mem_cons_of_mem _ hj)))
      (((hr₁.still me).enabled).trans hm) hr₁.lastRetired
    refine ⟨freed ++ freed', added ++ added', e₂, ?_, hr₁.trans hr₂⟩
    simp only [Epoch.drainAll, h₁, List.map_append]
    show (e₁.drainAll me version ids >>= _) = _
    rw [h₂]
    rfl

/-- Freeing every node that nobody can look at any more always goes through: all registered stores are
drained. -/
theorem Inv.retire (hi : e.Inv) (me : Nat) (now : Int64) :
    ∃ ids freed added e', e.retire me now = .ok (freed.map (·.node.label), e') ∧
      (e.enter me).Reclaimed me (e.enter me).oldestVersion ids freed added e' ∧
      ∀ id, ((e.enter me).store id).enabled = true → id ∈ ids := by
  have hm := (hi.enabled_enter me me).2 (.inl rfl)
  let e₁ : Epoch ι := ((e.enter me).refreshMin now).2
  have hi₁ : e₁.Inv := (hi.enter me).congr rfl rfl (Nat.le_refl _)
  have hown : me ≠ me → (e₁.store me).lastRetired ≤ (e.enter me).oldestVersion :=
    fun h => absurd rfl h
  obtain ⟨freed, added, e₂, h₂, hr₂⟩ := hi₁.drain hm hm hown
  have hin : ∀ id, id ∈ e₂.registered.filter (· ≠ me) ↔ id ≠ me ∧ (e₁.store id).enabled = true := by
    intro id
    rw [List.mem_filter, hr₂.inv.mem_registered, (hr₂.still id).enabled, and_comm, decide_eq_true_eq]
  obtain ⟨freed', added', e₃, h₃, hr₃⟩ := hr₂.inv.drainAll
    (fun id hid => ((hr₂.still id).enabled).trans ((hin id).1 hid).2) (((hr₂.still me).enabled).trans hm)
    hr₂.lastRetired
  obtain ⟨hinv, hturnover, hlock, hstill, hlast, hclean, hdue, hhanded⟩ := hr₂.trans hr₃
  have hscan : (e.enter me).Turnover [] [] e₁ := .of_eq rfl rfl rfl
  refine ⟨_, freed ++ freed', added ++ added', e₃, ?_,
    ⟨hinv, hscan.trans hturnover, hlock, hstill, hlast, hclean, hdue, hhanded⟩, ?_⟩
  · unfold Epoch.retire
    dsimp only
    rw [show (e.enter me).refreshMin now = ((e.enter me).oldestVersion, e₁) from rfl]
    dsimp only
    rw [h₂]
    show (e₂.drainAll me _ _ >>= _) = _
    rw [h₃, List.map_append]
    rfl
  · intro id hid
    by_cases h : id = me
    · exact List.mem_append_left _ (List.mem_singleton.2 h)
    · exact List.mem_append_right _ ((hin id).2 ⟨h, hid⟩)

end Epoch

end BackoffStack
