/-
An actor that nobody comes in between does, access by access, what the operations of the epoch do at once.
-/
import BackoffStack.Proofs.Crowd.Accesses
import BackoffStack.Proofs.Hazard.Operations

namespace BackoffStack

variable {ι : Type}

/-- What is freed. -/
def Mark.freed? : Mark ι → Option ι
  | freed w => some w.node.label
  | _ => none

/-- What an actor does on its own until nothing is left to do, and what all see of it. -/
inductive Performs (a : Actor) : Shared ι → List (Access ι) → List (Mark ι) → Shared ι → Prop
  | nil {s} : Performs a s [] [] s
  | cons {s x rest marks s'} :
      Performs a (x.perform a s).shared ((x.perform a s).next ++ rest) marks s' →
      Performs a s (x :: rest) ((x.perform a s).mark?.toList ++ marks) s'

namespace Performs

variable {a : Actor} {s s' s'' : Shared ι} {x : Access ι} {accesses accesses' : List (Access ι)}
  {marks marks' : List (Mark ι)} {id version : Nat} {e : Errand ι}

theorem append (h : Performs a s accesses marks s') (h' : Performs a s' accesses' marks' s'') :
    Performs a s (accesses ++ accesses') (marks ++ marks') s'' := by
  induction h with
  | nil => exact h'
  | cons _ ih =>
    rw [List.append_assoc, List.cons_append]
    refine .cons ?_
    rw [← List.append_assoc]
    exact ih h'

theorem one {s₁ : Shared ι} (hx : x.perform a s = { shared := s₁, next := accesses })
    (h : Performs a s₁ accesses marks s') : Performs a s [x] marks s' := by
  have hc : Performs a s [x] ((x.perform a s).mark?.toList ++ marks) s' := by
    refine .cons ?_
    rw [List.append_nil, hx]
    exact h
  rwa [hx] at hc

theorem next {s₁ : Shared ι} (hx : x.perform a s = { shared := s₁ })
    (h : Performs a s₁ accesses marks s') : Performs a s (x :: accesses) marks s' := by
  have hc : Performs a s (x :: accesses) ((x.perform a s).mark?.toList ++ marks) s' := by
    refine .cons ?_
    rw [hx]
    exact h
  rwa [hx] at hc

theorem shows {s₁ : Shared ι} {m : Mark ι}
    (hx : x.perform a s = { shared := s₁, next := accesses, mark? := some m })
    (h : Performs a s₁ accesses marks s') : Performs a s [x] (m :: marks) s' := by
  have hc : Performs a s [x] ((x.perform a s).mark?.toList ++ marks) s' := by
    refine .cons ?_
    rw [List.append_nil, hx]
    exact h
  rwa [hx] at hc

end Performs

/-! ## Stores -/

namespace Shared

variable {s : Shared ι} {id : Nat}

theorem ext_stores {s' : Shared ι} (hc : s.epoch.stores.count = s'.epoch.stores.count)
    (hs : ∀ j, s.store j = s'.store j)
    (h : { s with epoch := { s.epoch with stores := s'.epoch.stores } } = s') : s = s' := by
  have hstores : s.epoch.stores = s'.epoch.stores := SegmentTable.ext_get hc hs
  rw [← h, ← hstores]

theorem modify_modify (s : Shared ι) (id : Nat) (f f' : Store ι → Store ι) :
    (s.modify id f).modify id f' = s.modify id fun t => f' (f t) := by
  refine ext_stores ?_ (fun j => ?_) rfl
  · simp only [count_modify]
    omega
  · simp only [store_modify]
    split <;> simp

theorem modify_eq_put (hid : id / segmentSize < s.epoch.stores.count) (f : Store ι → Store ι) :
    s.modify id f = { s with epoch := s.epoch.put id (f (s.store id)) } := by
  refine ext_stores ?_ (fun j => ?_) rfl
  · rw [count_modify, Epoch.count_put]
    omega
  · rw [store_modify]
    exact (Epoch.store_put hid _ j).symm

end Shared

theorem Store.drain_of_ne {t : Store ι} {version : Nat} {kept freed : List (Waiting ι)}
    (h : t.lastRetired ≠ version) (hsift : sift version t.waiting [] = (kept, freed)) :
    t.drain version =
      { store :=
          { t with
            lastRetired := version
            waiting := []
            count := t.count - (kept.length + freed.length) }
        kept
        freed } := by
  rw [drain, if_neg h, hsift]

theorem Epoch.put_store {e : Epoch ι} {id : Nat} (hid : id / segmentSize < e.stores.count) :
    e.put id (e.store id) = e := by
  have hs : (e.put id (e.store id)).stores = e.stores := by
    refine SegmentTable.ext_get (count_put ..) fun j => (store_put hid _ j).trans ?_
    split
    · next h => rw [h]; rfl
    · rfl
  exact congrArg (fun stores => { e with stores }) hs

namespace Performs

open Access

variable {a : Actor} {s s' : Shared ι} {marks : List (Mark ι)} {e : Errand ι} {id version : Nat}

/-! ## Looking up one's store -/

theorem lookUp (hi : s.epoch.Inv) (hlock : s.registrar = none)
    (h : Performs a { s with epoch := s.epoch.enter a.id } e.begin marks s') :
    Performs a s [lookUp e] marks s' := by
  cases hen : (s.store a.id).enabled with
  | true =>
    rw [Epoch.enter_of_enabled hen] at h
    exact .one (by simp [perform, hen]; rfl) h
  | false =>
    let s₁ : Shared ι := { s.reach a.id with registrar := some a }
    let s₂ := s₁.modify a.id fun t => { t with next := s.epoch.newest }
    let s₃ : Shared ι := { s₂ with epoch := { s₂.epoch with newest := some a.id } }
    let s₄ : Shared ι := { s₃ with epoch := { s₃.epoch with storeCount := s.epoch.storeCount + 1 } }
    let s₅ := s₄.modify a.id fun t => { t with owner := a.id }
    let s₆ := s₅.modify a.id fun t => { t with enabled := true }
    have hs : ({ s₆ with registrar := none } : Shared ι) = { s with epoch := s.epoch.enter a.id } := by
      refine Shared.ext_stores ?_ (fun j => ?_) ?_
      · show s₆.epoch.stores.count = (s.epoch.enter a.id).stores.count
        have hreach : (s.reach a.id).epoch.stores.count =
            max s.epoch.stores.count (a.id / segmentSize + 1) := SegmentTable.count_reach ..
        rw [Epoch.count_enter, Shared.count_modify, Shared.count_modify]
        show max (max s₂.epoch.stores.count _) _ = _
        rw [Shared.count_modify]
        show max (max (max (s.reach a.id).epoch.stores.count _) _) _ = _
        omega
      · show s₆.store j = (s.epoch.enter a.id).store j
        have h₅ : ∀ j, s₅.store j =
            if j = a.id then { s₂.store a.id with owner := a.id } else s₂.store j :=
          s₄.store_modify a.id (f := fun t => { t with owner := a.id })
        have h₂ : ∀ j, s₂.store j = if j = a.id then { s.store a.id with next := s.epoch.newest }
            else s.store j := by
          intro j
          rw [← s.store_reach a.id, ← s.store_reach a.id]
          exact s₁.store_modify ..
        rw [hi.store_enter, Shared.store_modify, h₅, h₅, h₂, h₂]
        have hblank : s.store a.id = {} := hi.blank a.id hen
        by_cases hj : j = a.id
        · rw [if_pos hj, if_pos rfl, if_pos rfl, if_pos ⟨hj, hen⟩, hblank]
        · rw [if_neg hj, if_neg hj, if_neg hj, if_neg fun h => hj h.1]
          rfl
      · rw [Epoch.enter_of_not_enabled hen, ← hlock]
        rfl
    have h₁ : (Access.lookUp e).perform a s = { shared := s.reach a.id, next := [lockList e] } := by
      simp [perform, hen]
    have h₂ : (lockList e).perform a (s.reach a.id) = { shared := s₁, next := [lookAgain e] } := by
      simp [perform, Shared.reach, hlock, s₁]
    have h₃ : (lookAgain e).perform a s₁ = { shared := s₁, next := [readNewest e] } := by
      have hen₁ : (s₁.store a.id).enabled = false := (s.store_reach a.id a.id).symm ▸ hen
      simp [perform, hen₁]
    have h₄ : Performs a { s₆ with registrar := none } e.begin marks s' := hs ▸ h
    exact .one h₁ (.one h₂ (.one h₃ (.one rfl (.one rfl (.one rfl (.one rfl (.one rfl (.one rfl
      (.one rfl h₄)))))))))

/-! ## Acquiring -/

theorem busy (hp : (s.store a.id).published.isSome = true) : Performs a s [readVersion] [] s := by
  refine .one rfl (.one ?_ .nil)
  show ({ shared := s, next := if (s.store a.id).published.isSome then [] else _ } : Done ι) = _
  rw [if_pos hp]

theorem publishes (hid : a.id / segmentSize < s.epoch.stores.count) (hv : s.epoch.version ≠ idleVersion)
    (hp : ¬ (s.store a.id).published.isSome = true) : Performs a s [readVersion]
      [.acquired (s.store a.id).handle s.epoch.version]
      { s with epoch := s.epoch.put a.id ((s.store a.id).publish s.epoch.version) } := by
  generalize hs' : (s.modify a.id fun t => { t with published := some s.epoch.version }) = s'
  have hput : s' = { s with epoch := s.epoch.put a.id ((s.store a.id).publish s.epoch.version) } := by
    rw [← hs', Shared.modify_eq_put hid, Store.publish, if_neg hv]
  have hversion : s'.epoch.version = s.epoch.version := by rw [← hs']; rfl
  have hhandle : (s'.store a.id).handle = (s.store a.id).handle := by
    rw [← hs', Shared.store_modify, if_pos rfl]
    rfl
  have hidle : (checkIdle s.epoch.version).perform a s =
      { shared := s, next := [publish s.epoch.version] } := by
    show ({ shared := s, next := if (s.store a.id).published.isSome then [] else _ } : Done ι) = _
    rw [if_neg hp]
  have hpublish : (publish s.epoch.version).perform a s =
      { shared := s', next := [confirm s.epoch.version] } := by
    rw [← hs']
    rfl
  have hconfirm : (confirm s.epoch.version).perform a s' =
      { shared := s'
        mark? := some (.acquired (s.store a.id).handle s.epoch.version) } := by
    simp only [perform, hversion, hhandle, if_true]
  rw [← hput]
  exact .one rfl (.one hidle (.one hpublish (.shows hconfirm .nil)))

/-- What is seen of an acquisition. -/
def acquired (version : Nat) : Except Status Handle → List (Mark ι)
  | .ok h => [.acquired h version]
  | .error _ => []

theorem acquire (hi : s.epoch.Inv) (hlock : s.registrar = none) (hv : s.epoch.version ≠ idleVersion)
    {answer : Except Status Handle} {e' : Epoch ι}
    (h : s.epoch.acquireIn a.id a.id = .ok (answer, e')) :
    Performs a s [Access.lookUp .acquire] (acquired s.epoch.version answer) { s with epoch := e' } := by
  have hen := (hi.enabled_enter a.id a.id).2 (.inl rfl)
  have hid := ((hi.enter a.id).owned a.id hen).2
  have hversion := Epoch.version_enter s.epoch a.id
  refine lookUp hi hlock ?_
  rw [hi.acquireIn_eq] at h
  split at h
  · next hp =>
    cases h
    rw [Epoch.put_store hid]
    exact busy hp
  · next hp =>
    cases h
    rw [← hversion] at hv ⊢
    exact publishes hid hv hp

/-! ## Queueing and freeing nodes -/

theorem pushes (hid : a.id / segmentSize < s.epoch.stores.count) (w : Waiting ι) :
    Performs a s [push [w], countOwn 1, forgetRetired, countAll 1] []
      { s with
        epoch :=
          { s.epoch.put a.id { (s.store a.id).receive [w] with lastRetired := 0 } with
            waitingCount := s.epoch.waitingCount + 1 } } := by
  have hput : ((s.modify a.id fun t => { t with waiting := [w] ++ t.waiting }).modify a.id
      fun t => { t with count := t.count + 1 }).modify a.id (fun t => { t with lastRetired := 0 }) =
        { s with epoch := s.epoch.put a.id { (s.store a.id).receive [w] with lastRetired := 0 } } := by
    rw [Shared.modify_modify, Shared.modify_modify, Shared.modify_eq_put hid]
    rfl
  refine .next rfl (.next rfl (.next rfl (.one ?_ .nil)))
  simp only [perform, hput]
  rfl

theorem add (hi : s.epoch.Inv) (hlock : s.registrar = none) (node : Node ι) {e' : Epoch ι}
    (h : s.epoch.add a.id node = .ok e') :
    Performs a s [Access.lookUp (.add node)] [.stamped ⟨s.epoch.version + 1, node⟩]
      { s with epoch := e' } := by
  have hen := (hi.enabled_enter a.id a.id).2 (.inl rfl)
  have hid := ((hi.enter a.id).owned a.id hen).2
  rw [hi.add_eq, ← Epoch.version_enter s.epoch a.id] at h
  cases h
  refine lookUp hi hlock ?_
  rw [← Epoch.version_enter s.epoch a.id]
  let s₁ : Shared ι := { s with epoch :=
    { s.epoch.enter a.id with version := (s.epoch.enter a.id).version + 1 } }
  exact .shows rfl (pushes (s := s₁) hid ⟨s₁.epoch.version, node⟩)

theorem addAll (hi : s.epoch.Inv) (hlock : s.registrar = none)
    (hm : (s.store a.id).enabled = true) {nodes : List (Node ι)} {e' : Epoch ι}
    (h : s.epoch.addAll a.id nodes = .ok e') :
    ∃ marks, Performs a s (nodes.map fun node => Access.lookUp (.add node)) marks
      { s with epoch := e' } ∧ marks.filterMap Mark.freed? = [] := by
  induction nodes generalizing s with
  | nil =>
    cases h
    exact ⟨[], .nil, rfl⟩
  | cons node nodes ih =>
    obtain ⟨e₁, h₁, hq⟩ := hi.add a.id node
    rw [hi.enter_eq hm] at hq
    have h₂ : (s.epoch.add a.id node >>= fun e => e.addAll a.id nodes) = .ok e' := h
    rw [h₁] at h₂
    obtain ⟨marks, hp, hmarks⟩ := ih (s := { s with epoch := e₁ }) hq.inv hlock
      (hq.still.enabled.trans hm) h₂
    exact ⟨_, (add hi hlock node h₁).append hp, hmarks⟩

/-- Freed nodes go one after the other, each with what its drop function hands over. -/
theorem frees (hi : s.epoch.Inv) (hlock : s.registrar = none)
    (hm : (s.store a.id).enabled = true) {freed : List (Waiting ι)} {e' : Epoch ι}
    (h : s.epoch.addAll a.id (freed.flatMap (·.node.onFree)) = .ok e') :
    ∃ marks, Performs a s (freed.map .free) marks { s with epoch := e' } ∧
      marks.filterMap Mark.freed? = freed.map (·.node.label) := by
  induction freed generalizing s with
  | nil =>
    cases h
    exact ⟨[], .nil, rfl⟩
  | cons w freed ih =>
    obtain ⟨e₁, added, h₁, hq, -⟩ := hi.addAll hm w.node.onFree
    have h₂ : (s.epoch.addAll a.id w.node.onFree >>= fun e =>
        e.addAll a.id (freed.flatMap (·.node.onFree))) = .ok e' := by
      rw [← h, List.flatMap_cons]
      exact List.foldlM_append.symm
    rw [h₁] at h₂
    obtain ⟨marks₁, hp₁, hmarks₁⟩ := addAll hi hlock hm h₁
    obtain ⟨marks, hp, hmarks⟩ := ih (s := { s with epoch := e₁ }) hq.inv hlock
      (hq.still.enabled.trans hm) h₂
    refine ⟨.freed w :: (marks₁ ++ marks), .cons (hp₁.append hp), ?_⟩
    show w.node.label :: (marks₁ ++ marks).filterMap Mark.freed? = _
    rw [List.filterMap_append, hmarks₁, hmarks]
    rfl

/-! ## Draining -/

/-- The nodes that are too new go to one's own store, if there are any. -/
theorem keeps (ha : a.id / segmentSize < s.epoch.stores.count) (kept : List (Waiting ι))
    {accesses : List (Access ι)}
    (h : Performs a { s with epoch := s.epoch.put a.id ((s.store a.id).receive kept) } accesses marks
      s') :
    Performs a s ((if kept.isEmpty then [] else [push kept, countOwn kept.length]) ++ accesses) marks
      s' := by
  cases kept with
  | nil =>
    have hsame : (s.store a.id).receive [] = s.store a.id := by simp [Store.receive]
    rw [hsame, Shared.store, Epoch.put_store ha] at h
    exact h
  | cons w kept =>
    have hput : (s.modify a.id fun t => { t with waiting := w :: kept ++ t.waiting }).modify a.id
        (fun t => { t with count := t.count + (w :: kept).length }) =
          { s with epoch := s.epoch.put a.id ((s.store a.id).receive (w :: kept)) } := by
      rw [Shared.modify_modify, Shared.modify_eq_put ha]
      rfl
    rw [← hput] at h
    exact .next rfl (.next rfl h)

theorem parts (hi : s.epoch.Inv) (hid : (s.store id).enabled = true)
    (hm : (s.store a.id).enabled = true) (hlast : (s.store id).lastRetired ≠ version)
    {accesses : List (Access ι)}
    (h : Performs a { s with epoch := s.epoch.part id a.id version } accesses marks s') :
    let (kept, freed) := Store.sift version (s.store id).waiting []
    Performs a
      ((s.modify id fun t => { t with lastRetired := version }).modify id
        fun t => { t with waiting := [] })
      ((if kept.isEmpty then [] else [push kept, countOwn kept.length]) ++
        .uncount id (kept.length + freed.length) :: accesses) marks s' := by
  have hlt : id / segmentSize < s.epoch.stores.count := (hi.owned id hid).2
  have ha : a.id / segmentSize < s.epoch.stores.count := (hi.owned a.id hm).2
  cases hsift : Store.sift version (s.store id).waiting [] with | mk kept freed => ?_
  dsimp only
  have hd : (s.epoch.store id).drain version = _ := Store.drain_of_ne hlast hsift
  generalize hs₂ : ((s.modify id fun t => { t with lastRetired := version }).modify id
    fun t => { t with waiting := [] }) = s₂
  have h₂ : ∀ j, s₂.store j = if j = id then { s.store id with lastRetired := version, waiting := [] }
      else s.store j := by
    intro j
    rw [← hs₂, Shared.modify_modify, Shared.store_modify]
  have hcount : s₂.epoch.stores.count = s.epoch.stores.count := by
    rw [← hs₂, Shared.count_modify, Shared.count_modify]
    omega
  generalize hs₃ : ({ s₂ with epoch := s₂.epoch.put a.id ((s₂.store a.id).receive kept) } :
    Shared ι) = s₃
  have h₃ : ∀ j, s₃.store j = if j = a.id then (s₂.store a.id).receive kept else s₂.store j := by
    intro j
    rw [← hs₃]
    exact Epoch.store_put (hcount ▸ ha) _ j
  have hs₄ : (s₃.modify id fun t => { t with count := t.count - (kept.length + freed.length) }) =
      { s with epoch := s.epoch.part id a.id version } := by
    refine Shared.ext_stores ?_ (fun j => ?_) ?_
    · rw [Shared.count_modify, ← hs₃]
      show max (s₂.epoch.put a.id _).stores.count _ = ((s.epoch.put id _).put a.id _).stores.count
      rw [Epoch.count_put, Epoch.count_put, Epoch.count_put]
      omega
    · show _ = (s.epoch.part id a.id version).store j
      rw [Epoch.store_part hi hid hm, hd, Shared.store_modify, h₃, h₃, h₂, h₂, h₂,
        show s.epoch.store = s.store from rfl]
      by_cases hj : j = id
      · subst hj
        by_cases hja : j = a.id
        · simp only [← hja, if_true, Store.receive]
          congr 1
          omega
        · simp only [if_neg hja, if_true]
      · by_cases hja : j = a.id
        · subst hja
          simp only [if_neg hj, if_true]
        · simp only [if_neg hj, if_neg hja]
    · rw [← hs₃, ← hs₂]
      rfl
  refine keeps (hcount ▸ ha) kept ?_
  rw [hs₃]
  exact .next rfl (hs₄ ▸ h)

theorem drain (hi : s.epoch.Inv) (hlock : s.registrar = none) (hid : (s.store id).enabled = true)
    (hm : (s.store a.id).enabled = true) (hl : a.id ≠ id → (s.store a.id).lastRetired ≤ version)
    {freed : List ι} {e' : Epoch ι} (h : s.epoch.drain a.id id a.id version = .ok (freed, e')) :
    ∃ marks, Performs a s [swapRetired id version] marks { s with epoch := e' } ∧
      marks.filterMap Mark.freed? = freed := by
  have hlt : id / segmentSize < s.epoch.stores.count := (hi.owned id hid).2
  have hlt' : a.id / segmentSize < s.epoch.stores.count := (hi.owned a.id hm).2
  rw [Epoch.drain_eq (hi.owned a.id hm).1] at h
  by_cases hlast : (s.store id).lastRetired = version
  · -- the swap finds the version that it brings, and that is all
    have hd : (s.epoch.store id).drain version = { store := s.epoch.store id } := if_pos hlast
    have hpart : s.epoch.part id a.id version = s.epoch := by
      unfold Epoch.part
      rw [hd]
      dsimp only
      rw [Epoch.put_store hlt, show (s.epoch.store a.id).receive [] = s.epoch.store a.id by
        simp [Store.receive], Epoch.put_store hlt']
    have hsame : ({ s.store id with lastRetired := version } : Store ι) = s.store id := by
      rw [← hlast]
    have hswap : (swapRetired id version).perform a s = { shared := s } := by
      simp only [perform, if_pos hlast]
      rw [Shared.modify_eq_put hlt, hsame, Shared.store, Epoch.put_store hlt]
    rw [hd, hpart] at h
    cases h
    refine ⟨[], .one hswap ?_, rfl⟩
    have hcount : s.epoch.waitingCount - (0 : Nat) = s.epoch.waitingCount := Int.sub_zero _
    simp only [List.map_nil, List.length_nil, hcount]
    exact .nil
  · cases hsift : Store.sift version (s.store id).waiting [] with | mk kept gone => ?_
    have hd : (s.epoch.store id).drain version = _ := Store.drain_of_ne hlast hsift
    obtain ⟨hi', -⟩ := hi.part hid hm hl
    have hm' : ((s.epoch.part id a.id version).store a.id).enabled = true :=
      (hi.still_part hid hm a.id).enabled.trans hm
    rw [hd] at h
    obtain ⟨e₂, hadd, h⟩ := Epoch.exists_of_bind_eq_ok h
    cases h
    rw [List.flatMap_map] at hadd
    obtain ⟨marks, hp, hmarks⟩ :=
      frees (s := { s with epoch := s.epoch.part id a.id version }) hi' hlock hm' hadd
    have hparts := parts hi hid hm hlast (hp.append (.one (x := countAll (-gone.length)) rfl .nil))
    rw [hsift] at hparts
    have hswap : (swapRetired id version).perform a s =
        { shared := s.modify id fun t => { t with lastRetired := version }
          next := [takeList id version] } := by
      simp only [perform, if_neg hlast]
    have htake : (takeList id version).perform a
        (s.modify id fun t => { t with lastRetired := version }) =
          { shared := (s.modify id fun t => { t with lastRetired := version }).modify id
              fun t => { t with waiting := [] }
            next := Actor.dispose id kept gone } := by
      simp only [perform, Shared.store_modify, if_true, hsift]
    refine ⟨marks ++ [], .one hswap (.one htake ?_), ?_⟩
    · rw [Actor.dispose, List.append_assoc, List.cons_append, List.length_map]
      exact hparts
    · rw [List.append_nil, hmarks, List.map_map]
      rfl

theorem visits (hi : s.epoch.Inv) (hlock : s.registrar = none) (hm : (s.store a.id).enabled = true)
    (hl : (s.store a.id).lastRetired ≤ version) {link : Option Nat} {ids : List Nat}
    (hc : s.epoch.Chained link ids) (hids : ∀ id ∈ ids, (s.store id).enabled = true)
    {freed : List ι} {e' : Epoch ι}
    (h : s.epoch.drainAll a.id version (ids.filter (· ≠ a.id)) = .ok (freed, e')) :
    ∃ marks, Performs a s (a.visit version link) marks { s with epoch := e' } ∧
      marks.filterMap Mark.freed? = freed := by
  induction ids generalizing s link freed with
  | nil =>
    obtain rfl : link = none := hc
    cases h
    exact ⟨[], .nil, rfl⟩
  | cons id ids ih =>
    obtain ⟨rfl, hc⟩ := hc
    have hrest : ∀ j ∈ ids, (s.store j).enabled = true := fun j hj =>
      hids j (List.mem_cons_of_mem _ hj)
    by_cases hid : id = a.id
    · rw [List.filter_cons_of_neg (by simpa using hid)] at h
      obtain ⟨marks, hp, hmarks⟩ := ih hi hlock hm hl hc hrest h
      refine ⟨marks, ?_, hmarks⟩
      rw [Actor.visit, if_pos hid]
      exact .one rfl hp
    · rw [List.filter_cons_of_pos (by simpa using hid)] at h
      obtain ⟨⟨freed₁, e₁⟩, h₁, h⟩ := Epoch.exists_of_bind_eq_ok h
      obtain ⟨⟨freed₂, e₂⟩, h₂, h⟩ := Epoch.exists_of_bind_eq_ok h
      cases h
      have hen := hids id (List.mem_cons_self ..)
      obtain ⟨gone, added, e, hdrain, hr⟩ := hi.drain hen hm (fun _ => hl)
      cases hdrain.symm.trans h₁
      obtain ⟨marks₁, hp₁, hmarks₁⟩ := drain hi hlock hen hm (fun _ => hl) h₁
      obtain ⟨marks₂, hp₂, hmarks₂⟩ := ih (s := { s with epoch := e₁ }) hr.inv hlock
        ((hr.still _).enabled.trans hm) hr.lastRetired (hc.congr fun j _ => (hr.still j).next)
        (fun j hj => (hr.still j).enabled.trans (hrest j hj)) h₂
      refine ⟨marks₁ ++ marks₂, ?_, by rw [List.filterMap_append, hmarks₁, hmarks₂]⟩
      rw [Actor.visit, if_neg hid]
      refine hp₁.append (.one rfl ?_)
      have hnext : (e₁.store id).next = (s.epoch.store id).next := (hr.still id).next
      show Performs a _ (a.visit version (e₁.store id).next) _ _
      rw [hnext]
      exact hp₂

/-! ## The least version in use -/

theorem scan {x : Extent} {link : Option Nat} {ids : List Nat} (hc : s.epoch.Chained link ids)
    {least : Nat} (h : Performs a s [keepMin x (ids.foldl
      (fun least id => min least ((s.store id).published.getD least)) least)] marks s') :
    Performs a s (x.scan least link) marks s' := by
  induction ids generalizing link least with
  | nil =>
    obtain rfl : link = none := hc
    exact h
  | cons id ids ih =>
    obtain ⟨rfl, hc⟩ := hc
    exact .one rfl (.one rfl (ih hc h))

theorem scans (hi : s.epoch.Inv) {x : Extent}
    (h : Performs a { s with epoch := (s.epoch.refreshMin s.wall).2 }
      (x.drain a s.epoch.oldestVersion) marks s') : Performs a s [beginScan x] marks s' :=
  .one rfl (.one rfl (scan hi.registered_spec.1 (.one rfl (.one rfl (.one rfl h)))))

/-! ## Freeing whatever nobody can look at -/

theorem retire (hi : s.epoch.Inv) (hlock : s.registrar = none) {freed : List ι} {e' : Epoch ι}
    (h : s.epoch.retire a.id s.wall = .ok (freed, e')) :
    ∃ marks, Performs a s [Access.lookUp .retire] marks { s with epoch := e' } ∧
      marks.filterMap Mark.freed? = freed := by
  have hi₁ := hi.enter a.id
  have hm := (hi.enabled_enter a.id a.id).2 (.inl rfl)
  let e₁ : Epoch ι := ((s.epoch.enter a.id).refreshMin s.wall).2
  have hi₂ : e₁.Inv := hi₁.congr rfl rfl (Nat.le_refl _)
  obtain ⟨⟨mine, e₂⟩, h₂, h⟩ := Epoch.exists_of_bind_eq_ok h
  obtain ⟨⟨others, e₃⟩, h₃, h⟩ := Epoch.exists_of_bind_eq_ok h
  cases h
  have hown : a.id ≠ a.id → (e₁.store a.id).lastRetired ≤ (s.epoch.enter a.id).oldestVersion :=
    fun h => absurd rfl h
  obtain ⟨gone, added, e, hdrain, hr⟩ := hi₂.drain hm hm hown
  cases hdrain.symm.trans h₂
  obtain ⟨marks₂, hp₂, hmarks₂⟩ := drain (s := { s with epoch := e₁ }) hi₂ hlock hm hm hown h₂
  obtain ⟨marks₃, hp₃, hmarks₃⟩ := visits (s := { s with epoch := e₂ }) hr.inv hlock
    ((hr.still _).enabled.trans hm) hr.lastRetired hr.inv.registered_spec.1
    (fun id hid => hr.inv.mem_registered.1 hid) h₃
  refine ⟨marks₂ ++ marks₃, ?_, by rw [List.filterMap_append, hmarks₂, hmarks₃]⟩
  exact lookUp hi hlock (scans hi₁ (hp₂.append (.one rfl hp₃)))

/-! ## Releasing -/

theorem drainOwn (hi : s.epoch.Inv) (hlock : s.registrar = none) (hm : (s.store a.id).enabled = true)
    {e e' : Epoch ι} {answer : Except Violation (List ι)}
    (h : e.allOrNothing (s.epoch.drain a.id a.id a.id version) = (answer, e')) :
    ∃ marks, Performs a s [swapRetired a.id version] marks { s with epoch := e' } ∧
      marks.filterMap Mark.freed? = answer.toOption.getD [] := by
  have hown : a.id ≠ a.id → (s.store a.id).lastRetired ≤ version := fun h => absurd rfl h
  obtain ⟨gone, added, e₁, hdrain, -⟩ := hi.drain hm hm hown
  rw [hdrain] at h
  cases h
  exact drain hi hlock hm hm hown hdrain

theorem reclaimOwn (hi : s.epoch.Inv) (hlock : s.registrar = none)
    (hm : (s.store a.id).enabled = true) {answer : Except Violation (List ι)} {e' : Epoch ι}
    (h : s.epoch.allOrNothing (s.epoch.minVersion s.wall >>= fun (version, e) =>
      e.drain a.id a.id a.id version) = (answer, e')) :
    ∃ marks, Performs a s [readCached] marks { s with epoch := e' } ∧
      marks.filterMap Mark.freed? = answer.toOption.getD [] := by
  -- the minimum is looked for anew
  have afresh : s.epoch.allOrNothing ((s.epoch.refreshMin s.wall).2.drain a.id a.id a.id
      s.epoch.oldestVersion) = (answer, e') →
      ∃ marks, Performs a s [beginScan .own] marks { s with epoch := e' } ∧
        marks.filterMap Mark.freed? = answer.toOption.getD [] := by
    intro h
    obtain ⟨marks, hp, hmarks⟩ := drainOwn (s := { s with epoch := (s.epoch.refreshMin s.wall).2 })
      (hi.congr rfl rfl (Nat.le_refl _)) hlock hm h
    exact ⟨marks, scans hi hp, hmarks⟩
  by_cases hkept : s.epoch.cachedMin = 0
  · have hfirst : (readCached : Access ι).perform a s =
        { shared := s, next := [beginScan .own] } := by
      simp only [perform, if_neg (not_not.2 hkept)]
    have hmin : s.epoch.minVersion s.wall = .ok (s.epoch.refreshMin s.wall) := if_pos hkept
    rw [hmin] at h
    obtain ⟨marks, hp, hmarks⟩ := afresh h
    exact ⟨marks, .one hfirst hp, hmarks⟩
  have hfirst : (readCached : Access ι).perform a s =
      { shared := s, next := [readCachedAt s.epoch.cachedMin] } := by
    simp only [perform, if_pos (show s.epoch.cachedMin ≠ 0 from hkept)]
  cases hsum : checked (s.epoch.cachedAt.toInt + s.epoch.cacheTime.toInt) with
  | error why =>
    -- the clock is not looked at any more
    have hclock : (readClock s.epoch.cachedMin s.epoch.cachedAt : Access ι).perform a s =
        { shared := s } := by
      simp only [perform, hsum]
    have hmin : s.epoch.minVersion s.wall = .error why := by
      rw [Epoch.minVersion, if_neg hkept, hsum]
      rfl
    rw [hmin] at h
    cases h
    exact ⟨[], .one hfirst (.one rfl (.one hclock .nil)), rfl⟩
  | ok expiry =>
    have hmin : s.epoch.minVersion s.wall = .ok (if s.wall.toInt < expiry then
        (s.epoch.cachedMin, s.epoch) else s.epoch.refreshMin s.wall) := by
      rw [Epoch.minVersion, if_neg hkept, hsum]
      rfl
    rw [hmin] at h
    by_cases hyoung : s.wall.toInt < expiry
    · have hclock : (readClock s.epoch.cachedMin s.epoch.cachedAt : Access ι).perform a s =
          { shared := s, next := [swapRetired a.id s.epoch.cachedMin] } := by
        simp only [perform, hsum, if_pos hyoung]
        rfl
      rw [if_pos hyoung] at h
      obtain ⟨marks, hp, hmarks⟩ := drainOwn hi hlock hm h
      exact ⟨marks, .one hfirst (.one rfl (.one hclock hp)), hmarks⟩
    · have hclock : (readClock s.epoch.cachedMin s.epoch.cachedAt : Access ι).perform a s =
          { shared := s, next := [beginScan .own] } := by
        simp only [perform, hsum, if_neg hyoung]
      rw [if_neg hyoung] at h
      obtain ⟨marks, hp, hmarks⟩ := afresh h
      exact ⟨marks, .one hfirst (.one rfl (.one hclock hp)), hmarks⟩

theorem reclaimAll (hi : s.epoch.Inv) (hlock : s.registrar = none)
    {answer : Except Violation (List ι)} {e' : Epoch ι}
    (h : s.epoch.allOrNothing (checked (s.epoch.storeCount * s.epoch.threshold.toInt) >>= fun limit =>
      if limit < s.epoch.waitingCount then s.epoch.retire a.id s.wall else .ok ([], s.epoch)) =
        (answer, e')) :
    ∃ marks, Performs a s [compareAll s.epoch.storeCount] marks { s with epoch := e' } ∧
      marks.filterMap Mark.freed? = answer.toOption.getD [] := by
  cases hproduct : checked (s.epoch.storeCount * s.epoch.threshold.toInt) with
  | error why =>
    have hfirst : (compareAll s.epoch.storeCount : Access ι).perform a s = { shared := s } := by
      simp only [perform, hproduct]
    rw [hproduct] at h
    cases h
    exact ⟨[], .one hfirst .nil, rfl⟩
  | ok limit =>
    rw [hproduct] at h
    have h : s.epoch.allOrNothing (if limit < s.epoch.waitingCount then s.epoch.retire a.id s.wall
      else .ok ([], s.epoch)) = (answer, e') := h
    by_cases hall : limit < s.epoch.waitingCount
    · have hfirst : (compareAll s.epoch.storeCount : Access ι).perform a s =
          { shared := s, next := [Access.lookUp .retire] } := by
        simp only [perform, hproduct, if_pos hall]
      obtain ⟨ids, gone, added, e₁, hretire, -⟩ := hi.retire a.id s.wall
      rw [if_pos hall, hretire] at h
      cases h
      obtain ⟨marks, hp, hmarks⟩ := retire hi hlock hretire
      exact ⟨marks, .one hfirst hp, hmarks⟩
    · have hfirst : (compareAll s.epoch.storeCount : Access ι).perform a s = { shared := s } := by
        simp only [perform, hproduct, if_neg hall]
      rw [if_neg hall] at h
      cases h
      exact ⟨[], .one hfirst .nil, rfl⟩

/-- What happens after a handle was given back. -/
theorem reclaim (hi : s.epoch.Inv) (hlock : s.registrar = none) (hm : (s.store a.id).enabled = true)
    {answer : Except Violation (List ι)} {e' : Epoch ι}
    (h : s.epoch.reclaim a.id a.id s.wall = (answer, e')) :
    ∃ marks, Performs a s [compareOwn] marks { s with epoch := e' } ∧
      marks.filterMap Mark.freed? = answer.toOption.getD [] := by
  by_cases hfull : s.epoch.threshold.toInt < (s.store a.id).count
  · have hfirst : (compareOwn : Access ι).perform a s = { shared := s, next := [readCached] } := by
      simp only [perform, if_pos hfull]
    obtain ⟨marks, hp, hmarks⟩ := reclaimOwn hi hlock hm ((Epoch.reclaim_of_lt hfull).symm.trans h)
    exact ⟨marks, .one hfirst hp, hmarks⟩
  · have hfirst : (compareOwn : Access ι).perform a s =
        { shared := s, next := [readStoreCount] } := by
      simp only [perform, if_neg hfull]
    obtain ⟨marks, hp, hmarks⟩ := reclaimAll hi hlock ((Epoch.reclaim_of_le hfull).symm.trans h)
    exact ⟨marks, .one hfirst (.one rfl hp), hmarks⟩

theorem refuses {h : Handle} (hacc : ¬ (s.store a.id).accepts h = true) :
    Performs a s [checkHandle h] [] s := by
  refine .one ?_ .nil
  simp only [perform, if_neg hacc]

theorem withdraws (hid : a.id / segmentSize < s.epoch.stores.count) {h : Handle}
    (hacc : (s.store a.id).accepts h = true) : Performs a s [checkHandle h] [.released h]
      { s with epoch := s.epoch.put a.id (s.store a.id).unpublish } := by
  have hput : (s.modify a.id fun t => { t with published := none }).modify a.id
      (fun t => { t with sequence := t.sequence + 1 }) =
        { s with epoch := s.epoch.put a.id (s.store a.id).unpublish } := by
    rw [Shared.modify_modify, Shared.modify_eq_put hid]
    rfl
  have hfirst : (checkHandle h).perform a s = { shared := s, next := [withdraw h] } := by
    simp only [perform, if_pos hacc]
  rw [← hput]
  exact .one hfirst (.shows rfl (.one rfl .nil))

/-- To release is to give the handle back, and then to free what is due, as far as that goes. -/
theorem release (hi : s.epoch.Inv) (hlock : s.registrar = none) (sequence : UInt32)
    {answer : Except Violation (List ι)} {e' : Epoch ι}
    (h : s.epoch.release a.id ⟨a.id, sequence⟩ s.wall = (answer, e')) :
    ∃ marks, Performs a s [Access.lookUp (.release ⟨a.id, sequence⟩)] marks { s with epoch := e' } ∧
      marks.filterMap Mark.freed? = answer.toOption.getD [] := by
  have hen := (hi.enabled_enter a.id a.id).2 (.inl rfl)
  obtain ⟨howner, hid⟩ := (hi.enter a.id).owned a.id hen
  let s₁ : Shared ι := { s with epoch := s.epoch.enter a.id }
  obtain ⟨e₁, hgive, hg⟩ := hi.giveUp a.id sequence
  rw [Epoch.release_of_giveUp hgive] at h
  obtain ⟨marks, hp, hmarks⟩ :=
    reclaim (s := { s with epoch := e₁ }) hg.inv hlock (hg.registers hi) h
  have hstart : Performs a s₁ [checkHandle ⟨a.id, sequence⟩]
      (if (s₁.store a.id).sequence = sequence then [.released ⟨a.id, sequence⟩] else [])
      { s with epoch := e₁ } := by
    obtain rfl := Except.ok.inj ((hi.giveUp_eq a.id sequence).symm.trans hgive)
    have haccepts : (s₁.store a.id).accepts ⟨a.id, sequence⟩ =
        decide ((s₁.store a.id).sequence = sequence) :=
      Store.accepts_own howner sequence
    by_cases hq : (s₁.store a.id).sequence = sequence
    · rw [if_pos hq, if_pos (show ((s.epoch.enter a.id).store a.id).sequence = sequence from hq)]
      exact withdraws (s := s₁) hid (haccepts.trans (decide_eq_true hq))
    · rw [if_neg hq, if_neg (show ¬ ((s.epoch.enter a.id).store a.id).sequence = sequence from hq),
        Epoch.put_store hid]
      exact refuses fun hacc => hq (of_decide_eq_true (haccepts.symm.trans hacc))
  refine ⟨_, lookUp hi hlock (hstart.append hp), ?_⟩
  rw [List.filterMap_append, hmarks]
  split <;> rfl

/-! ## Steps in a row -/

/-- An actor does by its steps what it does on its own. -/
theorem exists_steps {accesses : List (Access ι)} (h : Performs a s accesses marks s') {c : Crowd ι}
    (hs : c.shared = s) (htodo : c.todo a = accesses) : ∃ n,
      (c.after (List.replicate n (.step a))).shared = s' ∧
      (c.after (List.replicate n (.step a))).todo a = [] ∧
      c.trace (List.replicate n (.step a)) = marks := by
  induction h generalizing c with
  | nil => exact ⟨0, hs, htodo, rfl⟩
  | @cons s x rest marks s' _ ih =>
    subst hs
    have hstep : c.happen (.step a) = (({ c with shared := (x.perform a c.shared).shared } :
        Crowd ι).assign a ((x.perform a c.shared).next ++ rest), (x.perform a c.shared).mark?) := by
      unfold Crowd.happen
      dsimp only
      rw [htodo]
    obtain ⟨n, hs', htodo', htrace⟩ := ih (c := (c.happen (.step a)).1) (by rw [hstep]; rfl)
      (by rw [hstep]; exact Function.update_self ..)
    refine ⟨n + 1, hs', htodo', ?_⟩
    show (c.happen (.step a)).2.toList ++ (c.happen (.step a)).1.trace _ = _
    rw [htrace, hstep]

end Performs

/-- What an errand comes to that is done at once: what is freed, and the epoch then. A release that breaks
off has given the handle back, and freed nothing. -/
def Errand.atOnce (a : Actor) (s : Shared ι) : Errand ι → Except Violation (List ι × Epoch ι)
  | acquire => (s.epoch.acquireIn a.id a.id).map fun (_, e) => ([], e)
  | release h =>
    let (answer, e) := s.epoch.release a.id h s.wall
    .ok (answer.toOption.getD [], e)
  | add node => (s.epoch.add a.id node).map ([], ·)
  | retire => s.epoch.retire a.id s.wall

theorem exists_of_map_eq_ok {ε α β : Type} {x : Except ε α} {f : α → β} {b : β}
    (h : x.map f = .ok b) : ∃ a, x = .ok a ∧ f a = b := by
  cases x with
  | error v => cases h
  | ok a => exact ⟨a, rfl, Except.ok.inj h⟩

/-- An actor that nobody comes in between does what the epoch does at once. -/
theorem Crowd.alone {c : Crowd ι} {a : Actor} {errand : Errand ι} (hi : c.shared.epoch.Inv)
    (hlock : c.shared.registrar = none) (hv : c.shared.epoch.version ≠ idleVersion)
    (htodo : c.todo a = []) (hplan : c.plan a errand = [.lookUp errand]) {freed : List ι}
    {e' : Epoch ι} (h : errand.atOnce a c.shared = .ok (freed, e')) : ∃ n,
      (c.after (.start a errand :: List.replicate n (.step a))).shared =
        { c.shared with epoch := e' } ∧
      (c.trace (.start a errand :: List.replicate n (.step a))).filterMap Mark.freed? = freed := by
  have hstart : c.happen (.start a errand) = (c.assign a [.lookUp errand], none) := by
    unfold Crowd.happen
    dsimp only
    rw [htodo, hplan]
  have hperforms : ∃ marks, Performs a c.shared [.lookUp errand] marks { c.shared with epoch := e' } ∧
      marks.filterMap Mark.freed? = freed := by
    cases errand with
    | acquire =>
      obtain ⟨⟨answer, e⟩, hacquire, h⟩ := exists_of_map_eq_ok h
      cases h
      refine ⟨_, Performs.acquire hi hlock hv hacquire, ?_⟩
      cases answer <;> rfl
    | release k =>
      have hk : k.tid = a.id := by
        unfold Crowd.plan at hplan
        dsimp only at hplan
        split at hplan
        · next h => exact h.1
        · cases hplan
      obtain ⟨tid, sequence⟩ := k
      obtain rfl : tid = a.id := hk
      cases hrelease : c.shared.epoch.release a.id ⟨a.id, sequence⟩ c.shared.wall with
      | mk answer e =>
        simp only [Errand.atOnce, hrelease] at h
        cases h
        exact Performs.release hi hlock sequence hrelease
    | add node =>
      obtain ⟨e, hadd, h⟩ := exists_of_map_eq_ok h
      cases h
      exact ⟨_, Performs.add hi hlock node hadd, rfl⟩
    | retire => exact Performs.retire hi hlock h
  obtain ⟨marks, hp, hmarks⟩ := hperforms
  obtain ⟨n, hs, -, htrace⟩ := hp.exists_steps (c := c.assign a [.lookUp errand]) rfl
    (Function.update_self ..)
  refine ⟨n, ?_, ?_⟩
  · show ((c.happen (.start a errand)).1.after _).shared = _
    rw [hstart]
    exact hs
  · show ((c.happen (.start a errand)).2.toList ++ (c.happen (.start a errand)).1.trace _).filterMap
      Mark.freed? = _
    rw [hstart, htrace]
    exact hmarks

end BackoffStack
