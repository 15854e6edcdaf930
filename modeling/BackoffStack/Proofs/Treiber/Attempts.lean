/-
Attempts to push and to pop, each as one change of the top.

Between two attempts no version is published and nobody holds the exiting threads' lock
(`Epoch.Idle`). So an attempt to pop always gets its guard, whoever makes it, takes the top off if there is
one, and leaves the epoch as it found it, but for nodes that wait or are freed. It may break off as it drops
the guard, if a limit does not fit a word then; what it has taken by that time is lost.
-/
import BackoffStack.Proofs.Hazard.Operations
import BackoffStack.Treiber.Stack

namespace BackoffStack

namespace Epoch

variable {ι : Type} {e e' : Epoch ι}

/-- Nobody is at work: no version is published, and the exiting threads' lock is free. -/
structure Idle (e : Epoch ι) : Prop where
  published : ∀ id, (e.store id).published = none
  exitLock : e.exitLock.locked = false

/-- One thread is at work, with this guard. -/
structure Pinned (e : Epoch ι) (who : Identity) (g : Guard) : Prop where
  inv : e.Inv
  enabled : (e.store who.id).enabled = true
  handle : g.handle = ⟨who.id, (e.store who.id).sequence⟩
  others : ∀ id, id ≠ who.id → (e.store id).published = none
  exiting : g.exiting = e.exitLock.locked

/-- A thread's own store lets it acquire while nothing is published there. -/
theorem Inv.acquireIn_idle (hi : e.Inv) (hn : ∀ id, (e.store id).published = none) (me : Nat) :
    ∃ h e', e.acquireIn me me = .ok (.ok h, e') ∧ e'.Inv ∧ (e'.store me).enabled = true ∧
      h = ⟨me, (e'.store me).sequence⟩ ∧ (∀ id, id ≠ me → (e'.store id).published = none) ∧
      e'.exitLock = e.exitLock := by
  have he := (hi.enabled_enter me me).2 (.inl rfl)
  obtain ⟨e', h, hp⟩ := hi.publishIn (hn me) e.version
  rw [← acquireIn_eq_publishIn] at h
  refine ⟨_, e', h, hp.inv, (hp.enabled me).trans he, ?_, fun id hid => ?_, hp.exitLock⟩
  · rw [hp.sequence]
  · rw [hp.published, if_neg hid, hn]

theorem Inv.pin_idle (hi : e.Inv) (hidle : e.Idle) (who : Identity) :
    ∃ g e', e.pin who = .ok (.pinned g, e') ∧ e'.Pinned who g := by
  cases who with
  | live id =>
    obtain ⟨h, e', heq, hi', he, hh, ho, hlock⟩ := hi.acquireIn_idle hidle.published id
    refine ⟨⟨h, false⟩, e', ?_, hi', he, hh, ho, ?_⟩
    · simp only [Epoch.pin, heq]
      rfl
    · rw [hlock, hidle.exitLock]
  | exiting =>
    have hi₁ : ({ e with exitLock := { e.exitLock with locked := true } } : Epoch ι).Inv :=
      hi.congr rfl rfl (Nat.le_refl _)
    obtain ⟨h, e', heq, hi', he, hh, ho, hlock⟩ := hi₁.acquireIn_idle hidle.published exitingId
    refine ⟨⟨h, true⟩, e', ?_, hi', he, hh, ho, ?_⟩
    · simp only [Epoch.pin, lockExit_eq, hidle.exitLock]
      show (Epoch.acquireIn _ exitingId exitingId >>= _) = _
      rw [heq]
      rfl
    · rw [hlock]

theorem Pinned.addAll {who : Identity} {g : Guard} (hp : e.Pinned who g) (nodes : List (Node ι)) :
    ∃ e' added, e.addAll who.id nodes = .ok e' ∧ e'.Pinned who g ∧
      e.Queued who.id added e' ∧ added.map (·.node) = nodes := by
  obtain ⟨e', added, h, hq, hn⟩ := hp.inv.addAll hp.enabled nodes
  refine ⟨e', added, h, ⟨hq.inv, hq.still.enabled.trans hp.enabled, ?_, ?_, ?_⟩, hq, hn⟩
  · rw [hq.still.sequence, hp.handle]
  · intro id hid
    rw [hq.others id hid, hp.others id hid]
  · rw [hq.exitLock, hp.exiting]

/-- How the drop of a guard ends, with the epoch right after its handle was given up. -/
structure Unpins (e : Epoch ι) (who : Identity) (g : Guard) (e₁ : Epoch ι)
    (added freed : List (Waiting ι)) (answer : Except Violation (List ι)) (e' : Epoch ι) : Prop where
  gives : e.giveUp who.id g.handle = .ok e₁
  inv : e'.Inv
  /-- Nobody is at work any more. -/
  idle : e'.Idle
  frees : e.Frees added freed e'
  answer : answer =
    if e₁.Overflows who.id then .error .overflow else .ok (freed.map (·.node.label))
  nothing : e₁.Overflows who.id → freed = []

theorem Pinned.unpin {who : Identity} {g : Guard} (hp : e.Pinned who g) (now : Int64) :
    ∃ e₁ added freed answer e', e.unpin who.id g now = (answer, e') ∧
      e.Unpins who g e₁ added freed answer e' := by
  have hlocked : g.exiting.toNat ≤ e.exitLock.locked.toNat := hp.exiting ▸ Nat.le_refl _
  have htid : who.id = g.handle.tid := by rw [hp.handle]
  obtain ⟨e₁, added, freed, answer, e₂, l, h₁, hgive, hr, hunpin, hl⟩ :=
    hp.inv.unpin_own htid hlocked now
  have hnone : ∀ id, (e₂.store id).published = none := by
    intro id
    rw [(hr.calm.still id).published, hgive.published, hp.inv.enter_eq hp.enabled, hp.handle]
    by_cases hid : id = who.id
    · rw [if_pos ⟨hid, rfl⟩]
    · rw [if_neg (fun h => hid h.1), hp.others id hid]
  have hfree : l.locked = false := by
    rw [hl, hp.exiting]
    exact Bool.and_not_self _
  exact ⟨e₁, added, freed, answer, _, hunpin, h₁, hr.inv.congr rfl rfl (Nat.le_refl _),
    ⟨hnone, hfree⟩, hr.calm.frees.between hgive.turnover (.of_eq rfl rfl rfl), hr.answer,
    fun h => (hr.nothing h).2⟩

theorem Unpins.labels {who : Identity} {g : Guard} {e₁ : Epoch ι} {added freed : List (Waiting ι)}
    {answer : Except Violation (List ι)} (h : e.Unpins who g e₁ added freed answer e') :
    answer.toOption.getD [] = freed.map (·.node.label) := by
  rw [h.answer]
  split
  · next hover =>
    rw [h.nothing hover]
    rfl
  · rfl

theorem Idle.new (threshold cacheTime : Int64) : ({ threshold, cacheTime } : Epoch ι).Idle where
  published id := by
    rw [show ({ threshold, cacheTime } : Epoch ι).store id = {} from SegmentTable.get_new id]
  exitLock := rfl

end Epoch

namespace TreiberStack

variable {α : Type} {s : TreiberStack α}

/-- The epoch of a stack between two attempts. -/
structure Ready (s : TreiberStack α) : Prop where
  inv : s.epoch.Inv
  idle : s.epoch.Idle

theorem Ready.new (threshold cacheTime : Int64) :
    (TreiberStack.new threshold cacheTime : TreiberStack α).Ready :=
  ⟨.new .., .new ..⟩

/-- What an attempt to pop answers, and the cells that it leaves. -/
def popCells : List (Cell α) → TryPop α × List (Cell α)
  | [] => (.empty, [])
  | cell :: cells => (.popped cell.value, cells)

/-- The nodes that an attempt to pop hands to the epoch: that of the top, if there is one. -/
def topNodes (s : TreiberStack α) : List (Node (Cell α)) := (s.cells.take 1).map .leaf

/-- While it holds its guard, an attempt to pop hands the node of the top to the epoch. -/
theorem takeTop_eq (s : TreiberStack α) (me : Nat) : s.takeTop me = (do
    let epoch ← s.epoch.addAll me s.topNodes
    return ((popCells s.cells).1, { s with cells := (popCells s.cells).2, epoch })) := by
  obtain ⟨epoch, cells, made, gone, contended⟩ := s
  cases cells with
  | nil => rfl
  | cons cell cells =>
    show (epoch.add me (.leaf cell) >>= _) =
      (epoch.add me (.leaf cell) >>= fun e : Epoch (Cell α) => e.addAll me []) >>= _
    rw [bind_assoc]
    rfl

/-- The epoch in which an attempt to pop frees nodes: the node of the top has been queued by then, and the
handle given up. -/
def reclaiming (s : TreiberStack α) (who : Identity) : Except Violation (Epoch (Cell α)) := do
  let (guard, pinned) ← s.pin who
  let queued ← pinned.epoch.addAll who.id s.topNodes
  queued.giveUp who.id guard.handle

/-- The epoch at each stage of an attempt to pop: with the guard, with the node of the top queued, with the
handle given up, and after the guard was dropped. -/
structure Stages (s : TreiberStack α) (who : Identity) (now : Int64) (g : Guard)
    (e₁ e₂ e₃ : Epoch (Cell α)) (added freed : List (Waiting (Cell α)))
    (ended : Except Violation (List (Cell α))) (s' : TreiberStack α) : Prop where
  pins : s.epoch.pin who = .ok (.pinned g, e₁)
  pinned : e₁.Pinned who g
  queues : e₁.addAll who.id s.topNodes = .ok e₂
  queued : e₂.Pinned who g
  drops : e₂.unpin who.id g now = (ended, s'.epoch)
  unpins : e₂.Unpins who g e₃ added freed ended s'.epoch
  eq : s' = { s with
    cells := (popCells s.cells).2
    epoch := s'.epoch
    gone := s.gone.freeAll (freed.map (·.node.label)) }

/-- An attempt to pop that is not lost gets through all of them. -/
theorem Ready.tryPop_stages (hr : s.Ready) (hc : s.contended = false) (who : Identity)
    (now : Int64) : ∃ g e₁ e₂ e₃ added freed ended s',
      s.tryPop who now = ((popCells s.cells).1.unpinned (ended.map fun _ => ()), s') ∧
        s.Stages who now g e₁ e₂ e₃ added freed ended s' := by
  obtain ⟨g, e₁, h₁, hp₁⟩ := hr.inv.pin_idle hr.idle who
  obtain ⟨e₂, queued, h₂, hp₂, -⟩ := hp₁.addAll s.topNodes
  obtain ⟨e₃, added, freed, ended, e₄, h₄, hunpins⟩ := hp₂.unpin now
  refine ⟨g, e₁, e₂, e₃, added, freed, ended, { s with
      cells := (popCells s.cells).2
      epoch := e₄
      gone := s.gone.freeAll (freed.map (·.node.label)) },
    ?_, h₁, hp₁, h₂, hp₂, h₄, hunpins, rfl⟩
  have hpin : s.pin who = .ok (g, { s with epoch := e₁ }) := by
    simp only [pin, h₁]
    rfl
  have htop : ({ s with epoch := e₁ } : TreiberStack α).takeTop who.id =
      .ok ((popCells s.cells).1, { s with cells := (popCells s.cells).2, epoch := e₂ }) := by
    rw [takeTop_eq]
    show (e₁.addAll who.id s.topNodes >>= _) = _
    rw [h₂]
    rfl
  unfold TreiberStack.tryPop
  rw [if_neg (by simp [hc])]
  simp only [hpin, htop, bind, Except.bind, pure, Except.pure, TreiberStack.unpin, h₄,
    ← hunpins.labels]
  cases ended <;> rfl

/-- What an attempt to pop leaves: the cells below the top, and the epoch after it has taken the node of
the top and freed nodes that waited. -/
structure Takes (s : TreiberStack α) (who : Identity) (added freed : List (Waiting (Cell α)))
    (answer : TryPop α) (s' : TreiberStack α) : Prop where
  ready : s'.Ready
  eq : s' = { s with
    cells := (popCells s.cells).2
    epoch := s'.epoch
    gone := s.gone.freeAll (freed.map (·.node.label)) }
  turnover : s.epoch.Turnover added freed s'.epoch
  handed : added.map (·.node) = s.topNodes ++ freed.flatMap (·.node.onFree)
  /-- It breaks off if a limit does not fit a word when it comes to freeing nodes, and only then. -/
  answer : ∃ e, s.reclaiming who = .ok e ∧ answer = if e.Overflows who.id then
    .broken .overflow (popCells s.cells).1.value? else (popCells s.cells).1

theorem Stages.takes {who : Identity} {now : Int64} {g : Guard} {e₁ e₂ e₃ : Epoch (Cell α)}
    {added freed : List (Waiting (Cell α))} {ended : Except Violation (List (Cell α))}
    {s' : TreiberStack α} (h : s.Stages who now g e₁ e₂ e₃ added freed ended s') (hr : s.Ready) :
    ∃ taken, s.Takes who (taken ++ added) freed
      ((popCells s.cells).1.unpinned (ended.map fun _ => ())) s' := by
  obtain ⟨ht₁, -⟩ := hr.inv.turnover_pin h.pins
  obtain ⟨e, taken, h₂, -, hq, hnode⟩ := h.pinned.addAll s.topNodes
  obtain rfl : e = e₂ := Except.ok.inj (h₂.symm.trans h.queues)
  have hpin : s.pin who = .ok (g, { s with epoch := e₁ }) := by
    simp only [pin, h.pins]
    rfl
  have hreclaiming : s.reclaiming who = .ok e₃ := by
    unfold reclaiming
    rw [hpin]
    show (e₁.addAll who.id s.topNodes >>= _) = _
    rw [h.queues]
    exact h.unpins.gives
  refine ⟨taken, ⟨h.unpins.inv, h.unpins.idle⟩, h.eq, (ht₁.trans hq.turnover).trans
    h.unpins.frees.turnover, ?_, e₃, hreclaiming, ?_⟩
  · rw [List.map_append, hnode, h.unpins.frees.handed]
  · rw [h.unpins.answer]
    split <;> rfl

theorem Ready.tryPop_takes (hr : s.Ready) (hc : s.contended = false) (who : Identity) (now : Int64) :
    ∃ answer s' added freed, s.tryPop who now = (answer, s') ∧
      s.Takes who added freed answer s' := by
  obtain ⟨g, e₁, e₂, e₃, added, freed, ended, s', h, hst⟩ := hr.tryPop_stages hc who now
  obtain ⟨taken, ht⟩ := hst.takes hr
  exact ⟨_, s', taken ++ added, freed, h, ht⟩

/-- An attempt to pop that is not lost takes the top off, whether or not it breaks off after that. -/
theorem Ready.tryPop (hr : s.Ready) (hc : s.contended = false) (who : Identity) (now : Int64) :
    ∃ answer s', s.tryPop who now = (answer, s') ∧ s'.Ready ∧
      s'.cells = (popCells s.cells).2 ∧ s'.contended = false ∧
      (answer = (popCells s.cells).1 ∨ answer = .broken .overflow (popCells s.cells).1.value?) := by
  obtain ⟨answer, s', added, freed, h, ht⟩ := hr.tryPop_takes hc who now
  obtain ⟨e, -, hanswer⟩ := ht.answer
  refine ⟨answer, s', h, ht.ready, ?_, ?_, ?_⟩
  · rw [ht.eq]
  · rw [ht.eq]
    exact hc
  · rw [hanswer]
    split
    · exact .inr rfl
    · exact .inl rfl

/-- An attempt to push goes through, with its value on the top, or is lost, with no value gained. -/
theorem Ready.tryPush (hr : s.Ready) (v : α) : ∃ s', s'.Ready ∧
    (s.tryPush v = (.pushed, s') ∧ s'.values = v :: s.values ∨
      s.tryPush v = (.contended v, s') ∧ s'.values = s.values) := by
  by_cases hc : s.contended = true
  · exact ⟨{ s with made := s.made + 1 }, ⟨hr.inv, hr.idle⟩, .inr ⟨if_pos hc, rfl⟩⟩
  · exact ⟨{ s with made := s.made + 1, cells := .make s.made v :: s.cells }, ⟨hr.inv, hr.idle⟩,
      .inl ⟨if_neg hc, rfl⟩⟩

end TreiberStack

end BackoffStack
