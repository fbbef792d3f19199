import LightRcu.ObjectStages
import LightRcu.PassCoverage

/-!
# Grace periods

A thread that holds an object entered its read section before the object was
stamped, so the version of the thread is at most the stamp.  The pass that the
worker makes after it has taken over the callback meets the thread, and the
walk behind the pass leaves the callback on its list.
-/

namespace LightRcu

open Execution

variable {state next : NamespaceState}

/-- The worker does not destroy a callback of the version on account of the
thread. -/
def HoldsBack (threads : List ReaderId) (i : ReaderId) (version : Nat) : WorkerPc → Prop
  | .passing pass => PassCovers threads i version pass
  | .walkList _ rbt | .walkHlist _ rbt => lrcuRangetreeFind rbt version = true
  | _ => True

/-- The threads that hold an object are older than its stamp, and the worker
respects them. -/
structure GraceOk (state : NamespaceState) : Prop where
  inside : ∀ i, ∀ obj ∈ state.held i, state.Inside i ∧ state.stage obj ≠ .unused
  older : ∀ i, ∀ obj ∈ state.held i, ∀ version, state.Stamped obj version →
    (state.lns i).version ≤ version
  holdsBack : ∀ i, ∀ callback ∈ state.workerCallbacks, callback.obj ∈ state.held i →
    HoldsBack state.lists.threads i callback.version state.worker

/-! ## What the threads hold -/

/-- A thread keeps what it holds while it stays inside, and gains only what it
reads from a cell. -/
private theorem held_of_own_step {i : ReaderId} {action : ReaderAction} {obj : ObjId}
    (depths : DepthsOk state) (fits : DepthFits state (.reader i action))
    (inside : ∀ obj ∈ state.held i, state.Inside i)
    (move : ReaderMove state i action next) (member : obj ∈ next.held i) :
    next.Inside i ∧ (next.lns i).version = (state.lns i).version ∧
      (obj ∈ state.held i ∨ ∃ cell, state.cell cell = some obj) := by
  have kept : obj ∈ state.held i → (next.lns i).counter ≠ 0 →
      next.Inside i ∧ (next.lns i).version = (state.lns i).version ∧
        (obj ∈ state.held i ∨ ∃ cell, state.cell cell = some obj) := by
    intro held counted
    obtain ⟨stays, same⟩ :=
      (inside_of_own_step depths fits (inside obj held) move).resolve_right counted
    exact ⟨stays, same, Or.inl held⟩
  have counted : obj ∈ state.held i → 1 ≤ (state.lns i).counter :=
    fun held => (inside obj held).counter_pos
  cases move with
  | dereference cell read idle entered stored =>
      have nested := (depths i).1
      refine ⟨Or.inl ⟨idle, show 1 ≤ (state.lns i).counter by omega⟩, rfl, ?_⟩
      simp only [NamespaceState.setHeld, Function.update_self, List.mem_cons] at member
      rcases member with rfl | held
      · exact Or.inr ⟨cell, stored⟩
      · exact Or.inl held
  | unlockLast =>
      simp [NamespaceState.setHeld] at member
  | lockCount =>
      have := counted member
      refine kept member ?_
      simp only [NamespaceState.setReader, NamespaceState.setLns, Function.update_self,
        i32Succ_of_lt (depths.isI32 i) (fits i rfl)]
      omega
  | unlockNested idle nested left =>
      refine kept member ?_
      simp only [NamespaceState.setLns, Function.update_self, (depths.i32Pred_eq left).2]
      omega
  | lockStore =>
      have := counted member
      refine kept member ?_
      simp only [NamespaceState.setReader, NamespaceState.setLns, Function.update_self]
      omega
  | lockFirst | lockNested | dereferenceNull | setNs | delNs =>
      have := counted member
      refine kept member ?_
      change (state.lns i).counter ≠ 0
      omega

theorem held_of_step {action : NamespaceAction} {i : ReaderId} {obj : ObjId}
    (depths : DepthsOk state) (fits : DepthFits state action)
    (inside : ∀ obj ∈ state.held i, state.Inside i)
    (stepped : namespaceStep state action = some next) (member : obj ∈ next.held i) :
    next.Inside i ∧ (next.lns i).version = (state.lns i).version ∧
      (obj ∈ state.held i ∨ ∃ cell, state.cell cell = some obj) := by
  by_cases own : ∃ own, action = .reader i own
  · obtain ⟨own, rfl⟩ := own
    exact held_of_own_step depths fits inside (readerMove_of_step stepped) member
  · obtain ⟨lns, reader, held⟩ := reader_eq_of_step stepped (not_exists.mp own)
    rw [held] at member
    refine ⟨?_, by rw [lns], Or.inl member⟩
    unfold NamespaceState.Inside
    rw [lns, reader]
    exact inside obj member

/-! ## What the worker respects -/

/-- The worker, in a step of its own, only destroys what its tree does not hold
back. -/
private theorem holdsBack_of_workerMove {i : ReaderId} {callback : Callback ObjId}
    (holdsBack : callback ∈ state.workerCallbacks →
      HoldsBack state.lists.threads i callback.version state.worker)
    (move : WorkerMove state next) (member : callback ∈ next.workerCallbacks) :
    HoldsBack next.lists.threads i callback.version next.worker := by
  cases move
  case endPass rbt pc | leaveList index rbt pc _ | keep pc _ _ _ | keepHead pc _ _ _ =>
    have before := holdsBack member
    rwa [pc] at before
  case destroy pc callback found free =>
    have before := holdsBack (List.mem_append.mpr
      ((List.mem_append.mp member).imp_left List.mem_of_mem_eraseIdx))
    rw [pc] at before
    change HoldsBack _ _ _ state.worker
    rwa [pc]
  case destroyHead pc callback found free =>
    have before := holdsBack (List.mem_append.mpr
      ((List.mem_append.mp member).imp_right List.mem_of_mem_eraseIdx))
    rw [pc] at before
    change HoldsBack _ _ _ state.worker
    rwa [pc]
  all_goals trivial

/-! ## Every step keeps grace periods -/

namespace GraceOk

theorem init (workerTi : ReaderId) (ranges : Nat → LrcuRange) :
    GraceOk (namespaceInit workerTi ranges) where
  inside i obj held := by simp [namespaceInit] at held
  older i obj held := by simp [namespaceInit] at held
  holdsBack i callback member := by
    simp [namespaceInit, NamespaceState.workerCallbacks] at member

private theorem holdsBack_of_step {action : NamespaceAction} {i : ReaderId}
    {callback : Callback ObjId} (grace : GraceOk state) (holds : QuietOk state)
    (stamps : StampsOk state) (quiet : Quiet state action)
    (stepped : namespaceStep state action = some next)
    (member : callback ∈ next.workerCallbacks) (held : callback.obj ∈ state.held i) :
    HoldsBack next.lists.threads i callback.version next.worker := by
  by_cases own : action = .worker
  · subst own
    exact holdsBack_of_workerMove (fun before => grace.holdsBack i callback before held)
      (workerMove_of_step stepped) member
  · obtain ⟨list, hlist, _, worker⟩ := worker_of_step stepped own
    rw [NamespaceState.workerCallbacks, list, hlist] at member
    have before := grace.holdsBack i callback member held
    have stamped : state.Stamped callback.obj callback.version :=
      Or.inr (List.mem_append_right _ member)
    have counted := (grace.inside i _ held).1.counter_pos
    have covers : ∀ pass', next.worker = .passing pass' →
        PassCovers next.lists.threads i callback.version pass' := by
      intro pass' passing
      have passes : next.passOf .worker = some pass' := passOf_worker.mpr passing
      refine PassCovers.of_step (fun pass found => ?_) holds.ok holds.noneHung quiet.hang stepped
        passes (by omega) (grace.older i _ held _ stamped) (stamps _ _ stamped)
      rw [passOf_worker.mp found] at before
      exact before
    rcases worker with same | ⟨pass', passing⟩
    · cases pc : next.worker with
      | passing pass' => exact covers pass' pc
      | walkList | walkHlist =>
          rw [← same, pc] at before
          exact before
      | _ => trivial
    · rw [passing]
      exact covers pass' passing

theorem step {action : NamespaceAction} (grace : GraceOk state) (holds : QuietOk state)
    (objects : ObjectsOk state) (stamps : StampsOk state) (quiet : Quiet state action)
    (stepped : namespaceStep state action = some next) : GraceOk next := by
  have heldBefore : ∀ i, ∀ obj ∈ next.held i,
      next.Inside i ∧ (next.lns i).version = (state.lns i).version ∧
        (obj ∈ state.held i ∨ ∃ cell, state.cell cell = some obj) :=
    fun i _ member => held_of_step holds.depths quiet.depth
      (fun obj held => (grace.inside i obj held).1) stepped member
  constructor
  · intro i obj member
    obtain ⟨inside, _, origin⟩ := heldBefore i obj member
    refine ⟨inside, ?_⟩
    have used : state.stage obj ≠ .unused := by
      rcases origin with held | ⟨cell, stored⟩
      · exact (grace.inside i obj held).2
      · simp [objects.published cell obj stored]
    rcases stage_of_step objects stepped obj with same | move
    · rwa [same]
    · intro unused
      rw [unused] at move
      generalize state.stage obj = before at move
      cases move
  · intro i obj member version stamped
    obtain ⟨_, same, origin⟩ := heldBefore i obj member
    rw [same]
    rcases stamped_of_step objects stepped stamped with before | ⟨rfl, _⟩
    · rcases origin with held | ⟨cell, stored⟩
      · exact grace.older i obj held version before
      · exact absurd before (objects.not_stamped (objects.published cell obj stored))
    · exact (holds.versions i).versionLe
  · intro i callback member member'
    obtain ⟨_, _, held | ⟨cell, stored⟩⟩ := heldBefore i callback.obj member'
    · exact grace.holdsBack_of_step holds stamps quiet stepped member held
    · have published := objects.published cell _ stored
      rcases mem_callbacks_of_step stepped (List.mem_append_right _ member) with
        before | ⟨⟨_, calling⟩, _⟩
      · exact absurd (Or.inr before) (objects.not_stamped published)
      · simp [published] at calling

end GraceOk

theorem destroys_cases {obj : ObjId} (destroys : state.destroys = some obj) :
    ∃ version index rbt, ⟨obj, version⟩ ∈ state.workerCallbacks ∧
      (state.worker = .walkList index rbt ∨ state.worker = .walkHlist index rbt) ∧
        lrcuRangetreeFind rbt version = false := by
  unfold NamespaceState.destroys at destroys
  split at destroys
  next index rbt pc =>
    obtain ⟨callback, found, destroys⟩ := Option.bind_eq_some_iff.mp destroys
    split_ifs at destroys with held
    obtain rfl := Option.some.inj destroys
    exact ⟨callback.version, index, rbt,
      List.mem_append_left _ (List.mem_of_getElem? found), Or.inl pc, by simpa using held⟩
  next index rbt pc =>
    obtain ⟨callback, found, destroys⟩ := Option.bind_eq_some_iff.mp destroys
    split_ifs at destroys with held
    obtain rfl := Option.some.inj destroys
    exact ⟨callback.version, index, rbt,
      List.mem_append_right _ (List.mem_of_getElem? found), Or.inr pc, by simpa using held⟩
  next => simp at destroys

/-- What the grace periods of a quiet run rest on. -/
structure GraceKept (state : NamespaceState) : Prop where
  holds : QuietOk state
  objects : ObjectsOk state
  stamps : StampsOk state
  grace : GraceOk state

namespace GraceKept

theorem init (workerTi : ReaderId) (ranges : Nat → LrcuRange) :
    GraceKept (namespaceInit workerTi ranges) where
  holds := .init workerTi ranges
  objects := .init workerTi ranges
  stamps := .init workerTi ranges
  grace := .init workerTi ranges

theorem step {action : NamespaceAction} (kept : GraceKept state) (quiet : Quiet state action)
    (stepped : namespaceStep state action = some next) : GraceKept next where
  holds := kept.holds.step quiet stepped
  objects := kept.objects.step stepped
  stamps := kept.stamps.step kept.objects quiet.version stepped
  grace := kept.grace.step kept.holds kept.objects kept.stamps quiet stepped

end GraceKept

/-- Whenever the worker invokes the destructor of an object, no thread holds a
pointer to it that it has dereferenced in a read section it is still in, as long
as neither the version nor a nesting depth wraps. -/
theorem destroys_not_held {workerTi : ReaderId} {ranges : Nat → LrcuRange}
    {actions : List NamespaceAction} {state : NamespaceState} {obj : ObjId}
    (quiet : Meets namespaceStep Quiet (namespaceInit workerTi ranges) actions)
    (ran : run namespaceStep (namespaceInit workerTi ranges) actions = some state)
    (destroys : state.destroys = some obj) (i : ReaderId) : obj ∉ state.held i := by
  have kept := run_preserves_of_meets GraceKept
    (fun _ _ _ quiet kept stepped => kept.step quiet stepped) quiet (.init workerTi ranges) ran
  have grace := kept.grace
  intro held
  obtain ⟨version, index, rbt, member, pc, free⟩ := destroys_cases destroys
  have holdsBack := grace.holdsBack i ⟨obj, version⟩ member held
  rcases pc with pc | pc
  all_goals
    rw [pc] at holdsBack
    exact absurd holdsBack (by simp [HoldsBack, free])

/-- Thread `1` dereferences object `0`, which a writer replaces by object `1`.
It leaves and enters again, and dereferences object `1` before the worker
comes to the callback of object `0`. -/
def reentryActions : List NamespaceAction :=
  [.reader 1 .lrcuThreadSetNs,
    .writer .lrcuSpinLock, .writer .bumpVersion,
    .writer (.assignBarrier 0 (some 0)), .writer .assignStore,
    .reader 1 .lockCount, .reader 1 .lockTest, .reader 1 .lockStore,
    .reader 1 (.lrcuDereference 0),
    .writer (.assignBarrier 0 (some 1)), .writer .assignStore, .writer .lrcuWriteUnlockNs,
    .call 0 (.loadVersion false), .call 0 .insert, .writer .lrcuWriteBarrierNs,
    .reader 1 .lrcuReadUnlockNs,
    .reader 1 .lockCount, .reader 1 .lockTest, .reader 1 .lockStore,
    .reader 1 (.lrcuDereference 0),
    .worker, .worker, .worker, .worker] ++ passActions .worker 2 ++ [.worker]

theorem destroys_not_held_of_reentry :
    ∃ state, run namespaceStep (namespaceInit 0 fun _ => ⟨0, 0⟩) reentryActions = some state ∧
      state.destroys = some 0 ∧ state.held 1 = [1] ∧ 0 ∉ state.held 1 := by
  obtain ⟨state, ran, destroys, held⟩ : ∃ state,
      run namespaceStep (namespaceInit 0 fun _ => ⟨0, 0⟩) reentryActions = some state ∧
        state.destroys = some 0 ∧ state.held 1 = [1] := ⟨_, rfl, rfl, rfl⟩
  exact ⟨state, ran, destroys, held,
    destroys_not_held (quiet_of_early (.init 0 _) (by decide) (by decide)) ran destroys 1⟩

/-- Object `0` is published, and thread `1` is registered. -/
def publishActions : List NamespaceAction :=
  [.reader 1 .lrcuThreadSetNs,
    .writer .lrcuSpinLock, .writer .bumpVersion,
    .writer (.assignBarrier 0 (some 0)), .writer .assignStore, .writer .lrcuWriteUnlockNs]

/-- Thread `1` dereferences object `0` at the version before the last one, and a
writer replaces the object.  The call is stamped with the version `0`, and the
range of the pass ends before it begins. -/
def wrapActions : List NamespaceAction :=
  [.reader 1 .lockCount, .reader 1 .lockTest, .reader 1 .lockStore,
    .reader 1 (.lrcuDereference 0),
    .writer .lrcuSpinLock, .writer .bumpVersion,
    .writer (.assignBarrier 0 none), .writer .assignStore, .writer .lrcuWriteUnlockNs,
    .call 0 (.loadVersion false), .call 0 .insert,
    .worker, .worker, .worker, .worker] ++ passActions .worker 2 ++ [.worker]

/-- Once the version wraps, the worker destroys what a reader holds. -/
theorem not_destroys_not_held_of_wrap :
    ¬ ∀ (workerTi : ReaderId) (ranges : Nat → LrcuRange) (actions : List NamespaceAction)
      (state : NamespaceState) (obj : ObjId) (i : ReaderId),
      Meets namespaceStep (fun state action => HangTestFails state action ∧ DepthFits state action)
        (namespaceInit workerTi ranges) actions →
      run namespaceStep (namespaceInit workerTi ranges) actions = some state →
        state.destroys = some obj → obj ∉ state.held i := by
  intro safe
  obtain ⟨published, reached, version, outside, final, ran, destroys, held⟩ : ∃ published,
      run namespaceStep (namespaceInit 0 fun _ => ⟨0, 0⟩) publishActions = some published ∧
        published.version = 3 ∧ (published.lns 1).counter = 0 ∧
          ∃ final, run namespaceStep { published with version := 2 ^ 64 - 2 } wrapActions =
              some final ∧ final.destroys = some 0 ∧ final.held 1 = [0] :=
    ⟨_, rfl, rfl, rfl, _, rfl, rfl, rfl⟩
  have reaches : published.version + (2 ^ 64 - 5) = 2 ^ 64 - 2 := by
    rw [version]
    decide
  have bumped := run_bumps published (2 ^ 64 - 5) reaches (by decide)
  have meets : ∀ {actions : List NamespaceAction} {state : NamespaceState},
      (∀ action ∈ actions, action.now < lrcuHangTimeout) →
      (∀ i, .reader i .lockCount ∉ actions) →
        Meets namespaceStep (fun state action => HangTestFails state action ∧
          DepthFits state action) state actions := by
    intro actions state early enters
    refine .of_forall fun action member state => ⟨hangTestFails_of_early (early action member), ?_⟩
    rintro i rfl
    exact absurd member (enters i)
  refine safe 0 (fun _ => ⟨0, 0⟩)
    (publishActions ++ (List.replicate (2 ^ 64 - 5) (.writer .lrcuWriteBarrierNs) ++ wrapActions))
    final 0 1 ?_ ?_ destroys (held ▸ List.mem_singleton_self 0)
  · refine (meets (by decide) (by simp [publishActions])).append reached
      (.append (meets ?_ ?_) bumped ?_)
    · intro action member
      rw [List.eq_of_mem_replicate member]
      decide
    · intro i member
      exact absurd (List.eq_of_mem_replicate member) (by simp)
    · refine ⟨⟨hangTestFails_of_early (by decide), ?_⟩, fun next stepped => meets ?_ ?_⟩
      · rintro i ⟨⟩
        simp [outside]
      · decide
      · simp [passActions]
  · rw [run_append, reached, Option.bind_some, run_append, bumped, Option.bind_some, ran]
end LightRcu
