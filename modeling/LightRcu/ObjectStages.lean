import LightRcu.NamespaceInvariants

/-!
# The life of an object

An object is published at most once, in one cell.  Once it is replaced, a call
stamps it with a version and queues it, and the worker destroys it.
-/

namespace LightRcu

variable {state next : NamespaceState}

/-- One step in the life of an object, when the namespace is at a version. -/
inductive StageMove (version : Nat) (obj : ObjId) :
    NamespaceAction → ObjStage → ObjStage → Prop
  | publish (action : WriterAction) : StageMove version obj (.writer action) .unused .published
  | replace (action : WriterAction) : StageMove version obj (.writer action) .published .retired
  | retire : StageMove version obj (.call obj .retire) .unused .retired
  | load (head : Bool) :
      StageMove version obj (.call obj (.loadVersion head)) .retired (.calling version head)
  | insert (stamp : Nat) (head : Bool) :
      StageMove version obj (.call obj .insert) (.calling stamp head) .queued
  | destroy (before : ObjStage) (listed : before = .queued ∨ before = .destroyed) :
      StageMove version obj .worker before .destroyed

namespace NamespaceState

/-- The callbacks on the two lists that the worker walks. -/
def workerCallbacks (state : NamespaceState) : List (Callback ObjId) :=
  state.workerList ++ state.workerHlist

/-- The callbacks on all four lists. -/
def callbacks (state : NamespaceState) : List (Callback ObjId) :=
  state.freeList ++ state.freeHlist ++ state.workerCallbacks

/-- The version that a call has loaded for the object, which its callback
carries until it is destroyed. -/
def Stamped (state : NamespaceState) (obj : ObjId) (version : Nat) : Prop :=
  (∃ head, state.stage obj = .calling version head) ∨ ⟨obj, version⟩ ∈ state.callbacks

end NamespaceState

/-- What the cells and the lists say about the stages of objects. -/
structure ObjectsOk (state : NamespaceState) : Prop where
  published : ∀ cell obj, state.cell cell = some obj → state.stage obj = .published
  once : ∀ cell cell' obj, state.cell cell = some obj → state.cell cell' = some obj →
    cell = cell'
  listed : ∀ callback ∈ state.callbacks,
    state.stage callback.obj = .queued ∨ state.stage callback.obj = .destroyed
  queued : ∀ obj, state.stage obj = .queued → ∃ version, ⟨obj, version⟩ ∈ state.callbacks

/-- No stamp is ahead of the version, which holds until it wraps. -/
def StampsOk (state : NamespaceState) : Prop :=
  ∀ obj version, state.Stamped obj version → version ≤ state.version

/-! ## Lists with one element erased -/

theorem mem_or_eq_of_eraseIdx {α : Type*} {list : List α} {index : Nat} {erased other : α}
    (found : list[index]? = some erased) (member : other ∈ list) :
    other ∈ list.eraseIdx index ∨ other = erased := by
  obtain ⟨position, inside, rfl⟩ := List.getElem_of_mem member
  by_cases same : position = index
  · subst same
    rw [List.getElem?_eq_getElem inside, Option.some.injEq] at found
    exact Or.inr found
  · exact Or.inl (List.mem_eraseIdx_iff_getElem.mpr ⟨position, inside, same, rfl⟩)

/-! ## What a step does to the callbacks -/

private theorem mem_callbacks_of_workerMove {callback : Callback ObjId}
    (move : WorkerMove state next) (member : callback ∈ next.callbacks) :
    callback ∈ state.callbacks := by
  simp only [NamespaceState.callbacks, NamespaceState.workerCallbacks,
    List.mem_append] at member ⊢
  cases move
  case spliceFreeList =>
    simp only [List.not_mem_nil, false_or, List.mem_append] at member
    tauto
  case spliceFreeHlist =>
    simp only [List.not_mem_nil, or_false, List.mem_append] at member
    tauto
  case destroy =>
    exact member.imp_right (Or.imp_left List.mem_of_mem_eraseIdx)
  case destroyHead =>
    exact member.imp_right (Or.imp_right List.mem_of_mem_eraseIdx)
  all_goals exact member

/-- A callback that a step puts on a list comes from a call. -/
theorem mem_callbacks_of_step {action : NamespaceAction} {callback : Callback ObjId}
    (stepped : namespaceStep state action = some next) (member : callback ∈ next.callbacks) :
    callback ∈ state.callbacks ∨
      (∃ head, state.stage callback.obj = .calling callback.version head) ∧
        next.stage callback.obj = .queued := by
  cases action with
  | reader i action =>
      obtain ⟨_, _, _, _, rfl, _⟩ := (readerMove_of_step stepped).shape
      exact Or.inl member
  | writer action =>
      obtain ⟨_, _, _, _, rfl⟩ := (writerMove_of_step stepped).shape
      exact Or.inl member
  | call obj action =>
      cases callMove_of_step stepped with
      | retire | loadVersion => exact Or.inl member
      | insert version calling =>
          simp only [NamespaceState.callbacks, NamespaceState.workerCallbacks,
            NamespaceState.setStage, List.cons_append, List.mem_cons] at member ⊢
          rcases member with rfl | member
          · exact Or.inr ⟨⟨false, calling⟩, Function.update_self _ _ _⟩
          · exact Or.inl member
      | insertHead version calling =>
          simp only [NamespaceState.callbacks, NamespaceState.workerCallbacks,
            NamespaceState.setStage, List.mem_append, List.mem_cons] at member ⊢
          rcases member with (free | rfl | head) | worker
          · exact Or.inl (Or.inl (Or.inl free))
          · exact Or.inr ⟨⟨true, calling⟩, Function.update_self _ _ _⟩
          · exact Or.inl (Or.inl (Or.inr head))
          · exact Or.inl (Or.inr worker)
  | pass owner action =>
      obtain ⟨_, _, _, _, rfl⟩ := passAction_shape stepped
      exact Or.inl member
  | worker => exact Or.inl (mem_callbacks_of_workerMove (workerMove_of_step stepped) member)
  | enter c barrier ranges =>
      obtain ⟨_, rfl⟩ := enter_shape stepped
      exact Or.inl member
  | caller c =>
      obtain ⟨_, _, rfl⟩ := callerMove_of_step stepped
      exact Or.inl member

private theorem callbacks_of_workerMove {callback : Callback ObjId}
    (move : WorkerMove state next) (member : callback ∈ state.callbacks) :
    callback ∈ next.callbacks ∨ next.stage callback.obj = .destroyed := by
  simp only [NamespaceState.callbacks, NamespaceState.workerCallbacks,
    List.mem_append] at member ⊢
  cases move
  case spliceFreeList =>
    simp only [List.not_mem_nil, false_or, List.mem_append]
    tauto
  case spliceFreeHlist =>
    simp only [List.not_mem_nil, or_false, List.mem_append]
    tauto
  case destroy index rbt _ erased found _ =>
    rcases member with free | list | hlist
    · exact Or.inl (Or.inl free)
    · rcases mem_or_eq_of_eraseIdx found list with kept | rfl
      · exact Or.inl (Or.inr (Or.inl kept))
      · exact Or.inr (Function.update_self _ _ _)
    · exact Or.inl (Or.inr (Or.inr hlist))
  case destroyHead index rbt _ erased found _ =>
    rcases member with free | list | hlist
    · exact Or.inl (Or.inl free)
    · exact Or.inl (Or.inr (Or.inl list))
    · rcases mem_or_eq_of_eraseIdx found hlist with kept | rfl
      · exact Or.inl (Or.inr (Or.inr kept))
      · exact Or.inr (Function.update_self _ _ _)
  all_goals exact Or.inl member

/-- A callback leaves the lists only when its destructor is invoked. -/
theorem callbacks_of_step {action : NamespaceAction} {callback : Callback ObjId}
    (stepped : namespaceStep state action = some next) (member : callback ∈ state.callbacks) :
    callback ∈ next.callbacks ∨ next.stage callback.obj = .destroyed := by
  cases action with
  | reader i action =>
      obtain ⟨_, _, _, _, rfl, _⟩ := (readerMove_of_step stepped).shape
      exact Or.inl member
  | writer action =>
      obtain ⟨_, _, _, _, rfl⟩ := (writerMove_of_step stepped).shape
      exact Or.inl member
  | call obj action =>
      refine Or.inl ?_
      simp only [NamespaceState.callbacks, NamespaceState.workerCallbacks,
        List.mem_append] at member ⊢
      cases callMove_of_step stepped with
      | retire | loadVersion => exact member
      | insert =>
          exact member.imp_left (Or.imp_left fun free => List.mem_cons_of_mem _ free)
      | insertHead =>
          exact member.imp_left (Or.imp_right fun free => List.mem_cons_of_mem _ free)
  | pass owner action =>
      obtain ⟨_, _, _, _, rfl⟩ := passAction_shape stepped
      exact Or.inl member
  | worker => exact callbacks_of_workerMove (workerMove_of_step stepped) member
  | enter c barrier ranges =>
      obtain ⟨_, rfl⟩ := enter_shape stepped
      exact Or.inl member
  | caller c =>
      obtain ⟨_, _, rfl⟩ := callerMove_of_step stepped
      exact Or.inl member

/-! ## What a step does to the objects -/

theorem stage_of_step {action : NamespaceAction} (ok : ObjectsOk state)
    (stepped : namespaceStep state action = some next) (obj : ObjId) :
    next.stage obj = state.stage obj ∨
      StageMove state.version obj action (state.stage obj) (next.stage obj) := by
  have of_update : ∀ {changed : ObjId} {stage : ObjStage},
      StageMove state.version changed action (state.stage changed) stage →
        Function.update state.stage changed stage obj = state.stage obj ∨
          StageMove state.version obj action (state.stage obj)
            (Function.update state.stage changed stage obj) := by
    intro changed stage move
    by_cases same : obj = changed
    · subst same
      exact Or.inr (by rwa [Function.update_self])
    · exact Or.inl (Function.update_of_ne same _ _)
  cases action with
  | reader i action =>
      obtain ⟨_, _, _, _, rfl, _⟩ := (readerMove_of_step stepped).shape
      exact Or.inl rfl
  | writer action =>
      cases writerMove_of_step stepped with
      | assignStore cell new fresh stage stages =>
          change stage obj = state.stage obj ∨ StageMove _ _ _ _ (stage obj)
          rw [stages]
          split_ifs with replaced published
          · rw [ok.published cell obj replaced]
            exact Or.inr (.replace action)
          · rw [fresh obj published]
            exact Or.inr (.publish action)
          · exact Or.inl rfl
      | lrcuSpinLock | bumpVersion | assignBarrier | lrcuWriteUnlockNs | lrcuWriteBarrierNs =>
          exact Or.inl rfl
  | call changed action =>
      cases callMove_of_step stepped with
      | retire unused => exact of_update (unused ▸ .retire)
      | loadVersion head retired => exact of_update (retired ▸ .load head)
      | insert version calling => exact of_update (calling ▸ .insert version false)
      | insertHead version calling => exact of_update (calling ▸ .insert version true)
  | pass owner action =>
      obtain ⟨_, _, _, _, rfl⟩ := passAction_shape stepped
      exact Or.inl rfl
  | worker =>
      cases workerMove_of_step stepped
      case destroy callback found _ =>
        refine of_update (.destroy _ (ok.listed callback ?_))
        simp [NamespaceState.callbacks, NamespaceState.workerCallbacks,
          List.mem_of_getElem? found]
      case destroyHead callback found _ =>
        refine of_update (.destroy _ (ok.listed callback ?_))
        simp [NamespaceState.callbacks, NamespaceState.workerCallbacks,
          List.mem_of_getElem? found]
      all_goals exact Or.inl rfl
  | enter c barrier ranges =>
      obtain ⟨_, rfl⟩ := enter_shape stepped
      exact Or.inl rfl
  | caller c =>
      obtain ⟨_, _, rfl⟩ := callerMove_of_step stepped
      exact Or.inl rfl

private theorem cell_of_step {action : NamespaceAction} (ok : ObjectsOk state)
    (stepped : namespaceStep state action = some next) :
    (next.cell = state.cell ∧
        ∀ obj, state.stage obj = .published → next.stage obj = .published) ∨
      ∃ cell new, next.cell = Function.update state.cell cell new ∧
        (∀ obj ∈ new, state.stage obj = .unused) ∧
        ∀ obj, next.stage obj =
          if state.cell cell = some obj then .retired
          else if new = some obj then .published else state.stage obj := by
  have of_update : ∀ {changed : ObjId} {stage : ObjStage}, state.stage changed ≠ .published →
      ∀ obj, state.stage obj = .published →
        Function.update state.stage changed stage obj = .published := by
    intro changed stage distinct obj published
    have other : obj ≠ changed := by
      rintro rfl
      exact distinct published
    rw [Function.update_of_ne other, published]
  cases action with
  | reader i action =>
      obtain ⟨_, _, _, _, rfl, _⟩ := (readerMove_of_step stepped).shape
      exact Or.inl ⟨rfl, fun _ => id⟩
  | writer action =>
      cases writerMove_of_step stepped with
      | assignStore cell new fresh stage stages =>
          exact Or.inr ⟨cell, new, rfl, fresh, stages⟩
      | lrcuSpinLock | bumpVersion | assignBarrier | lrcuWriteUnlockNs | lrcuWriteBarrierNs =>
          exact Or.inl ⟨rfl, fun _ => id⟩
  | call changed action =>
      cases callMove_of_step stepped with
      | retire unused => exact Or.inl ⟨rfl, of_update (by simp [unused])⟩
      | loadVersion head retired => exact Or.inl ⟨rfl, of_update (by simp [retired])⟩
      | insert version calling => exact Or.inl ⟨rfl, of_update (by simp [calling])⟩
      | insertHead version calling => exact Or.inl ⟨rfl, of_update (by simp [calling])⟩
  | pass owner action =>
      obtain ⟨_, _, _, _, rfl⟩ := passAction_shape stepped
      exact Or.inl ⟨rfl, fun _ => id⟩
  | worker =>
      have unpublished : ∀ callback ∈ state.callbacks,
          state.stage callback.obj ≠ .published := by
        intro callback member published
        rcases ok.listed callback member with stage | stage
        · simp [stage] at published
        · simp [stage] at published
      cases workerMove_of_step stepped
      case destroy callback found _ =>
        refine Or.inl ⟨rfl, of_update (unpublished callback ?_)⟩
        simp [NamespaceState.callbacks, NamespaceState.workerCallbacks,
          List.mem_of_getElem? found]
      case destroyHead callback found _ =>
        refine Or.inl ⟨rfl, of_update (unpublished callback ?_)⟩
        simp [NamespaceState.callbacks, NamespaceState.workerCallbacks,
          List.mem_of_getElem? found]
      all_goals exact Or.inl ⟨rfl, fun _ => id⟩
  | enter c barrier ranges =>
      obtain ⟨_, rfl⟩ := enter_shape stepped
      exact Or.inl ⟨rfl, fun _ => id⟩
  | caller c =>
      obtain ⟨_, _, rfl⟩ := callerMove_of_step stepped
      exact Or.inl ⟨rfl, fun _ => id⟩

theorem listed_of_insert {obj : ObjId} {version : Nat} {head : Bool}
    (stepped : callStep state obj .insert = some next)
    (calling : state.stage obj = .calling version head) :
    ⟨obj, version⟩ ∈ next.callbacks := by
  cases callMove_of_step stepped with
  | insert loaded its | insertHead loaded its =>
      obtain ⟨rfl, _⟩ := ObjStage.calling.inj (its.symm.trans calling)
      simp [NamespaceState.callbacks]

/-- Only a call stamps an object, with the version that it loads. -/
theorem stamped_of_step {action : NamespaceAction} {obj : ObjId} {version : Nat}
    (ok : ObjectsOk state) (stepped : namespaceStep state action = some next)
    (stamped : next.Stamped obj version) :
    state.Stamped obj version ∨
      version = state.version ∧ state.stage obj = .retired ∧
        ∃ head, action = .call obj (.loadVersion head) := by
  rcases stamped with ⟨head, calling⟩ | listed
  · rcases stage_of_step ok stepped obj with same | move
    · exact Or.inl (Or.inl ⟨head, same ▸ calling⟩)
    · rw [calling] at move
      generalize before : state.stage obj = stage at move
      cases move with
      | load => exact Or.inr ⟨rfl, rfl, head, rfl⟩
  · rcases mem_callbacks_of_step stepped listed with before | ⟨calling, _⟩
    · exact Or.inl (Or.inr before)
    · exact Or.inl (Or.inl calling)

namespace ObjectsOk

theorem init (workerTi : ReaderId) (ranges : Nat → LrcuRange) :
    ObjectsOk (namespaceInit workerTi ranges) where
  published cell obj stored := by simp [namespaceInit] at stored
  once cell cell' obj stored := by simp [namespaceInit] at stored
  listed callback member := by
    simp [namespaceInit, NamespaceState.callbacks, NamespaceState.workerCallbacks] at member
  queued obj stage := by simp [namespaceInit] at stage

theorem step {action : NamespaceAction} (ok : ObjectsOk state)
    (stepped : namespaceStep state action = some next) : ObjectsOk next := by
  have kept : ∀ cell obj cell' new, next.cell = Function.update state.cell cell' new →
      next.cell cell = some obj →
        (cell = cell' ∧ new = some obj) ∨ (cell ≠ cell' ∧ state.cell cell = some obj) := by
    intro cell obj cell' new cells stored
    rw [cells] at stored
    by_cases same : cell = cell'
    · subst same
      exact Or.inl ⟨rfl, by rwa [Function.update_self] at stored⟩
    · exact Or.inr ⟨same, by rwa [Function.update_of_ne same] at stored⟩
  constructor
  · intro cell obj stored
    rcases cell_of_step ok stepped with ⟨cells, published⟩ | ⟨cell', new, cells, fresh, stages⟩
    · exact published obj (ok.published cell obj (cells ▸ stored))
    · rw [stages]
      rcases kept cell obj cell' new cells stored with ⟨rfl, assigned⟩ | ⟨other, before⟩
      · have unused := fresh obj assigned
        rw [if_neg, if_pos assigned]
        exact fun old => by simp [ok.published cell obj old] at unused
      · have published := ok.published cell obj before
        rw [if_neg fun old => other (ok.once cell _ obj before old)]
        split_ifs
        · rfl
        · exact published
  · intro cell cell'' obj stored stored'
    rcases cell_of_step ok stepped with ⟨cells, _⟩ | ⟨cell', new, cells, fresh, _⟩
    · exact ok.once cell cell'' obj (cells ▸ stored) (cells ▸ stored')
    · have not_fresh : ∀ other, new = some obj → state.cell other ≠ some obj :=
        fun other assigned before => by
          have unused := fresh obj assigned
          simp [ok.published other obj before] at unused
      have stores' := kept cell'' obj cell' new cells stored'
      rcases kept cell obj cell' new cells stored with ⟨same, assigned⟩ | ⟨_, before⟩
      · rcases stores' with ⟨same', _⟩ | ⟨_, before'⟩
        · exact same.trans same'.symm
        · exact absurd before' (not_fresh _ assigned)
      · rcases stores' with ⟨_, assigned'⟩ | ⟨_, before'⟩
        · exact absurd before (not_fresh _ assigned')
        · exact ok.once cell cell'' obj before before'
  · intro callback member
    rcases mem_callbacks_of_step stepped member with before | ⟨_, queued⟩
    · have stage := ok.listed callback before
      rcases stage_of_step ok stepped callback.obj with same | move
      · rwa [same]
      · refine Or.inr ?_
        generalize next.stage callback.obj = after at move
        rcases stage with stage | stage <;> rw [stage] at move <;> cases move <;> rfl
    · exact Or.inl queued
  · intro obj queued
    rcases stage_of_step ok stepped obj with same | move
    · obtain ⟨version, member⟩ := ok.queued obj (same ▸ queued)
      rcases callbacks_of_step stepped member with kept | destroyed
      · exact ⟨version, kept⟩
      · exact absurd (queued.symm.trans destroyed) (by simp)
    · rw [queued] at move
      generalize before : state.stage obj = stage at move
      cases move with
      | insert version head => exact ⟨version, listed_of_insert stepped before⟩

theorem not_stamped {obj : ObjId} {version : Nat} (ok : ObjectsOk state)
    (published : state.stage obj = .published) : ¬ state.Stamped obj version := by
  rintro (⟨head, calling⟩ | listed)
  · simp [published] at calling
  · simpa [published] using ok.listed _ listed

end ObjectsOk

theorem StampsOk.init (workerTi : ReaderId) (ranges : Nat → LrcuRange) :
    StampsOk (namespaceInit workerTi ranges) := by
  intro obj version stamped
  simp [namespaceInit, NamespaceState.Stamped, NamespaceState.callbacks,
    NamespaceState.workerCallbacks] at stamped

theorem StampsOk.step {action : NamespaceAction} (stamps : StampsOk state)
    (ok : ObjectsOk state) (fits : VersionFits state action)
    (stepped : namespaceStep state action = some next) : StampsOk next := by
  intro obj version stamped
  have grown := version_le_of_step fits stepped
  rcases stamped_of_step ok stepped stamped with before | ⟨rfl, _⟩
  · exact (stamps obj version before).trans grown
  · exact grown

end LightRcu
