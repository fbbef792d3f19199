import LightRcu.PassProgress
import LightRcu.SharedWorkerSafety

/-!
# What an empty pass leaves in the array

A pass that meets no reader adds no range, and its search then looks at the
first cell of an array that it has not written.  Whatever range is there, from
an earlier pass over this namespace or another one, holds back its versions
until some pass meets a reader again.
-/

namespace LightRcu

open ClosedInterval Execution

variable {state next : NamespaceState} {version : Nat}

/-- The counter that a pass of the owner loads is zero. -/
def MeetsNobody (owner : PassOwner) (state : NamespaceState) (action : NamespaceAction) : Prop :=
  ∀ loop currentVersion index version rbt ti,
    action = .pass owner .loadLnsCounter →
    state.passOf owner = some (.visiting loop currentVersion index version none rbt) →
    (state.lists.walked loop)[index]? = some ti → (state.lns ti).counter = 0

/-- The tree is empty, and the first cell of its array holds a range with the
version. -/
def StaleTree (version : Nat) (rbt : LrcuRangetree) : Prop :=
  rbt.len = 0 ∧ (rbt.r 0).Contains version

/-- The pass has met no reader so far, and its array holds the version back. -/
def PassStale (version : Nat) : PassPc → Prop
  | .loadVersion rbt | .lockThreads _ rbt | .finished rbt => StaleTree version rbt
  | .visiting _ _ _ _ counter rbt =>
      (∀ count ∈ counter, count = 0) ∧ StaleTree version rbt

theorem StaleTree.find {rbt : LrcuRangetree} (stale : StaleTree version rbt) :
    lrcuRangetreeFind rbt version = true :=
  (lrcuRangetreeFind_of_empty stale.1 version).mpr stale.2

theorem PassStale.step {owner : PassOwner} {pass pass' : PassPc} {action : PassAction}
    (stale : PassStale version pass) (nobody : MeetsNobody owner state (.pass owner action))
    (running : state.passOf owner = some pass)
    (move : PassMove state owner pass action next pass') : PassStale version pass' := by
  cases move with
  | loadVersion rbt => exact stale
  | lockThreads currentVersion rbt free => exact ⟨by simp, stale⟩
  | loadLnsVersion => exact stale
  | loadLnsCounter loop currentVersion index sampled rbt ti found =>
      refine ⟨fun count same => ?_, stale.2⟩
      exact Option.some.inj same ▸
        nobody loop currentVersion index sampled rbt ti rfl running found
  | visit loop currentVersion index sampled counter rbt now visited visits =>
      obtain ⟨zero, empty⟩ := stale
      have left : counter = 0 := zero counter rfl
      obtain ⟨ti, _, added, _⟩ := visitNext_cases visits
      rcases visit_range loop currentVersion (state.lists.info ti)
          ⟨⟨sampled, counter⟩, now⟩ with ⟨_, range⟩ | ⟨active, _⟩
      · rw [range, addVisitRange, Option.some.injEq] at added
        exact ⟨by simp, added ▸ empty⟩
      · exact absurd left active
  | nextLoop => exact stale
  | unlockThreads currentVersion index rbt merged room all optimized =>
      obtain ⟨_, empty, contains⟩ := stale
      obtain ⟨stays, cells⟩ := optimize_merge_of_empty empty optimized
      exact ⟨stays, cells ▸ contains⟩

/-! ## A caller that waits for nobody -/

/-- The caller waits for the version, and its array holds it back. -/
def CallerStale (barrier : Bool) (version : Nat) (c : CallerId) (state : NamespaceState) :
    Prop :=
  ∃ pass, state.caller c = .waiting barrier version pass ∧ PassStale version pass

theorem CallerStale.step {barrier : Bool} {c : CallerId} {action : NamespaceAction}
    (stale : CallerStale barrier version c state) (nobody : MeetsNobody (.caller c) state action)
    (stepped : namespaceStep state action = some next) : CallerStale barrier version c next := by
  obtain ⟨pass, waiting, stale⟩ := stale
  rcases waiting_of_step stepped waiting with
    ⟨own, middle, pass', rfl, move, _, after⟩ | ⟨rfl, move⟩ | ⟨_, after⟩
  · have found := passOf_caller.mpr ⟨barrier, version, waiting⟩
    exact ⟨pass', after, stale.step nobody found move⟩
  · generalize after : next.caller c = pc at move
    cases move with
    | again _ _ rbt held => exact ⟨_, after, rfl, stale.2⟩
    | leave _ rbt free | leaveBarrier _ rbt free =>
        exact absurd (stale.find.symm.trans free) (by simp)
  · exact ⟨pass, after, stale⟩

/-- A round of `lrcu_synchronize_ns` that begins with the awaited version in the
first cell of its array is followed by others, however many passes they make, as
long as these passes meet no reader. -/
theorem synchronize_loops_without_readers {final : NamespaceState}
    {actions : List NamespaceAction} {c : CallerId} {barrier : Bool} {rbt : LrcuRangetree}
    (waits : state.caller c = .waiting barrier version (.loadVersion rbt))
    (empty : rbt.len = 0) (left : (rbt.r 0).Contains version)
    (alone : Meets namespaceStep (MeetsNobody (.caller c)) state actions)
    (ran : run namespaceStep state actions = some final) :
    ∃ pass, final.caller c = .waiting barrier version pass := by
  have stale : CallerStale barrier version c final := by
    apply run_preserves_of_meets (CallerStale barrier version c)
      (fun _ _ _ nobody stale stepped => stale.step nobody stepped) alone _ ran
    exact ⟨_, waits, empty, left⟩
  obtain ⟨pass, waiting, _⟩ := stale
  exact ⟨pass, waiting⟩

/-- No thread is in a read section, or on its way in or out. -/
def NobodyInside (state : NamespaceState) : Prop :=
  ∀ i, (state.lns i).counter = 0

def NamespaceAction.byReader : NamespaceAction → Bool
  | .reader .. => true
  | _ => false

theorem NobodyInside.step {action : NamespaceAction} (outside : NobodyInside state)
    (other : action.byReader = false) (stepped : namespaceStep state action = some next) :
    NobodyInside next := by
  intro i
  have foreign : ∀ own, action ≠ .reader i own := by
    rintro own rfl
    simp [NamespaceAction.byReader] at other
  rw [(reader_eq_of_step stepped foreign).1]
  exact outside i

/-- Passes meet nobody while every thread stays outside. -/
theorem meetsNobody_of_outside (owner : PassOwner) {actions : List NamespaceAction}
    (outside : NobodyInside state)
    (others : ∀ action ∈ actions, action.byReader = false) :
    Meets namespaceStep (MeetsNobody owner) state actions := by
  induction actions generalizing state with
  | nil => trivial
  | cons action rest ih =>
      refine ⟨fun _ _ _ _ _ ti _ _ _ => outside ti, fun next stepped => ih ?_ ?_⟩
      · exact outside.step (others action List.mem_cons_self) stepped
      · exact fun later member => others later (List.mem_cons_of_mem _ member)

/-- A caller meets thread `1` in its first pass, and the thread leaves. -/
def leftBehindActions : List NamespaceAction :=
  [.reader 1 .lrcuThreadSetNs, .reader 1 .lockCount, .reader 1 .lockTest, .reader 1 .lockStore,
    .enter 0 false fun _ => ⟨0, 0⟩, .caller 0] ++ passActions (.caller 0) 2 ++
    [.caller 0, .reader 1 .lrcuReadUnlockNs]

theorem synchronize_loops_behind_reader :
    ∃ state final, run namespaceStep (namespaceInit 0 fun _ => ⟨0, 0⟩) leftBehindActions =
        some state ∧
      run namespaceStep state (passActions (.caller 0) 2 ++ [.caller 0, .writer .lrcuWriteBarrierNs]
        ++ passActions (.caller 0) 2 ++ [.caller 0]) = some final ∧
        ∃ pass, final.caller 0 = .waiting false 1 pass := by
  obtain ⟨state, final, rbt, reached, ran, waits, empty, left, outside⟩ :
      ∃ state final rbt, run namespaceStep (namespaceInit 0 fun _ => ⟨0, 0⟩)
          leftBehindActions = some state ∧
        run namespaceStep state (passActions (.caller 0) 2 ++
            [.caller 0, .writer .lrcuWriteBarrierNs] ++ passActions (.caller 0) 2 ++
              [.caller 0]) = some final ∧
          state.caller 0 = .waiting false 1 (.loadVersion rbt) ∧ rbt.len = 0 ∧
            (rbt.r 0).Contains 1 ∧ NobodyInside state := by
    refine ⟨_, _, _, rfl, rfl, rfl, rfl, by decide, fun i => ?_⟩
    match i with
    | 0 | 1 | _ + 2 => rfl
  refine ⟨state, final, reached, ran, ?_⟩
  apply synchronize_loops_without_readers waits empty left _ ran
  apply meetsNobody_of_outside (.caller 0) outside
  decide

/-! ## A worker that meets nobody -/

/-- The array of the worker holds the version back, and a pass of the worker has
met no reader so far. -/
def WorkerPcStale (version : Nat) (ranges : Nat → LrcuRange) (worker : WorkerPc) : Prop :=
  worker.ArrayIs (PassStale version) (StaleTree version) (fun ranges => (ranges 0).Contains version)
    ranges

theorem WorkerPcStale.step {action : NamespaceAction}
    (stale : WorkerPcStale version state.ranges state.worker)
    (nobody : MeetsNobody .worker state action)
    (stepped : namespaceStep state action = some next) :
    WorkerPcStale version next.ranges next.worker := by
  apply arrayIs_of_step _ _ _ _ stale stepped
  · exact fun ranges contains => ⟨rfl, contains⟩
  · rintro own pass middle pass' rfl stale found move
    exact stale.step nobody found move
  · exact fun rbt stale => stale
  · exact fun rbt stale => stale.2

private theorem callback_stays_of_workerMove {callback : Callback ObjId}
    (stale : WorkerPcStale callback.version state.ranges state.worker)
    (move : WorkerMove state next) (listed : callback ∈ state.callbacks) :
    callback ∈ next.callbacks := by
  simp only [NamespaceState.callbacks, NamespaceState.workerCallbacks,
    List.mem_append] at listed ⊢
  cases move
  case spliceFreeList =>
    simp only [List.not_mem_nil, false_or, List.mem_append]
    tauto
  case spliceFreeHlist =>
    simp only [List.not_mem_nil, or_false, List.mem_append]
    tauto
  case destroy index rbt pc erased found free =>
    rw [pc] at stale
    have other : callback ≠ erased := by
      rintro rfl
      exact absurd (stale.find.symm.trans free) (by simp)
    refine listed.imp_right (Or.imp_left fun list => ?_)
    exact (mem_or_eq_of_eraseIdx found list).resolve_right other
  case destroyHead index rbt pc erased found free =>
    rw [pc] at stale
    have other : callback ≠ erased := by
      rintro rfl
      exact absurd (stale.find.symm.trans free) (by simp)
    refine listed.imp_right (Or.imp_right fun hlist => ?_)
    exact (mem_or_eq_of_eraseIdx found hlist).resolve_right other
  all_goals exact listed

/-- Only the worker takes callbacks off the free lists. -/
theorem freeLists_of_foreign_step {action : NamespaceAction}
    (stepped : namespaceStep state action = some next) (others : action ≠ .worker) :
    state.freeList ⊆ next.freeList ∧ state.freeHlist ⊆ next.freeHlist := by
  cases action with
  | reader i action =>
      obtain ⟨_, _, _, _, rfl, _⟩ := (readerMove_of_step stepped).shape
      exact ⟨List.Subset.refl _, List.Subset.refl _⟩
  | writer action =>
      obtain ⟨_, _, _, _, rfl, _⟩ := (writerMove_of_step stepped).shape
      exact ⟨List.Subset.refl _, List.Subset.refl _⟩
  | call obj action =>
      cases callMove_of_step stepped with
      | retire | loadVersion => exact ⟨List.Subset.refl _, List.Subset.refl _⟩
      | insert => exact ⟨List.subset_cons_self _ _, List.Subset.refl _⟩
      | insertHead => exact ⟨List.Subset.refl _, List.subset_cons_self _ _⟩
  | pass owner action =>
      obtain ⟨_, _, _, _, rfl⟩ := passAction_shape stepped
      exact ⟨List.Subset.refl _, List.Subset.refl _⟩
  | worker => exact absurd rfl others
  | enter c barrier ranges =>
      obtain ⟨_, rfl⟩ := enter_shape stepped
      exact ⟨List.Subset.refl _, List.Subset.refl _⟩
  | caller c =>
      obtain ⟨_, _, rfl⟩ := callerMove_of_step stepped
      exact ⟨List.Subset.refl _, List.Subset.refl _⟩

/-- A callback of the version stays on the lists: only the walks of the worker
take callbacks off them, and they find the version. -/
theorem callback_stays {action : NamespaceAction} {callback : Callback ObjId}
    (stale : action = .worker → WorkerPcStale callback.version state.ranges state.worker)
    (stepped : namespaceStep state action = some next) (listed : callback ∈ state.callbacks) :
    callback ∈ next.callbacks := by
  by_cases own : action = .worker
  · subst own
    exact callback_stays_of_workerMove (stale rfl) (workerMove_of_step stepped) listed
  · obtain ⟨free, freeHead⟩ := freeLists_of_foreign_step stepped own
    obtain ⟨list, hlist, _⟩ := worker_of_step stepped own
    simp only [NamespaceState.callbacks, NamespaceState.workerCallbacks, List.mem_append, list,
      hlist] at listed ⊢
    exact listed.imp_left (Or.imp (fun member => free member) fun member => freeHead member)

/-! ## The array of all namespaces -/

variable {nsMax : Nat} {workerTi : ReaderId} {ranges : Nat → LrcuRange}

/-- What holds of the array that the namespaces share, between two of them and
within the one that the worker visits. -/
structure SharedArrayIs (between : (Nat → LrcuRange) → Prop)
    (within : (Nat → LrcuRange) → WorkerPc → Prop) (shared : SharedWorkerState) : Prop where
  between : ∀ id, shared.worker = .loadNs id → between shared.ranges
  within : ∀ id, shared.worker = .visiting id →
    ∃ ns, shared.ns id = some ns ∧ within ns.ranges ns.worker

theorem SharedArrayIs.step {between : (Nat → LrcuRange) → Prop}
    {within : (Nat → LrcuRange) → WorkerPc → Prop} {action : SharedWorkerAction}
    {shared after : SharedWorkerState} (holds : SharedArrayIs between within shared)
    (iff : ∀ ranges, within ranges .testFreeList ↔ between ranges) (turns : TurnsOk shared)
    (preserves : ∀ id own ns changed, action = .inNs id own → shared.ns id = some ns →
      within ns.ranges ns.worker → namespaceStep ns own = some changed →
        within changed.ranges changed.worker)
    (stepped : sharedWorkerStep nsMax workerTi shared action = some after) :
    SharedArrayIs between within after := by
  cases sharedWorkerMove_of_step stepped with
  | lrcuNsInit id absent =>
      refine ⟨holds.between, fun other visiting => ?_⟩
      obtain ⟨ns, present, inside⟩ := holds.within other visiting
      have apart : other ≠ id := by
        rintro rfl
        simp [absent] at present
      exact ⟨ns, (ns_setNs_of_ne apart _).trans present, inside⟩
  | skipNs id pc absent | nextRound id pc =>
      exact ⟨fun _ _ => holds.between id pc, by simp⟩
  | visitNs id pc ns present =>
      refine ⟨by simp, fun other visiting => ?_⟩
      obtain rfl := SharedWorkerPc.visiting.inj visiting
      refine ⟨_, ns_setNs id _, ?_⟩
      simp only [turns id ns present (by simp [pc])]
      exact (iff _).mpr (holds.between id pc)
  | inNs id own enabled ns changed present ownStep =>
      have kept : ∀ other, shared.worker = .visiting other →
          ∃ ns', (shared.setNs id changed).ns other = some ns' ∧ within ns'.ranges ns'.worker := by
        intro other visiting
        obtain ⟨ns', present', inside⟩ := holds.within other visiting
        by_cases same : other = id
        · subst same
          obtain rfl := Option.some.inj (present.symm.trans present')
          exact ⟨changed, ns_setNs other changed,
            preserves other own ns changed rfl present inside ownStep⟩
        · exact ⟨ns', (ns_setNs_of_ne same changed).trans present', inside⟩
      rcases worker_leaveIteration (shared.setNs id changed) id own changed with
        ⟨byWorker, ended, pc, array⟩ | ⟨_, pc, array⟩
      · -- the worker leaves the namespace that it was in
        have visiting : shared.worker = .visiting id := by
          by_contra elsewhere
          simp [foreign_of_enables enabled elsewhere] at byWorker
        obtain ⟨ns', present', inside⟩ := kept id visiting
        rw [ns_setNs, Option.some.injEq] at present'
        subst present'
        rw [ended] at inside
        exact ⟨fun _ _ => array ▸ (iff _).mp inside, by simp [pc]⟩
      · refine ⟨fun other loads => ?_, fun other visiting => ?_⟩
        · rw [pc] at loads
          exact array ▸ holds.between other loads
        · rw [pc] at visiting
          rw [ns_leaveIteration]
          exact kept other visiting

/-- Wherever the worker is, its array holds the version back. -/
structure ArrayStale (version : Nat) (shared : SharedWorkerState) : Prop where
  between : ∀ id, shared.worker = .loadNs id → (shared.ranges 0).Contains version
  within : ∀ id, shared.worker = .visiting id →
    ∃ ns, shared.ns id = some ns ∧ WorkerPcStale version ns.ranges ns.worker

/-- No pass of the worker meets a reader, in whatever namespace it is. -/
def WorkerMeetsNobody (shared : SharedWorkerState) (action : SharedWorkerAction) : Prop :=
  ∀ id own ns, action = .inNs id own → shared.ns id = some ns → MeetsNobody .worker ns own

theorem ArrayStale.step {action : SharedWorkerAction} {shared after : SharedWorkerState}
    (stale : ArrayStale version shared) (turns : TurnsOk shared)
    (nobody : WorkerMeetsNobody shared action)
    (stepped : sharedWorkerStep nsMax workerTi shared action = some after) :
    ArrayStale version after := by
  have holds : SharedArrayIs (fun ranges => (ranges 0).Contains version) (WorkerPcStale version)
      shared := ⟨stale.between, stale.within⟩
  obtain ⟨between, within⟩ := holds.step (fun _ => Iff.rfl) turns
    (fun id own ns _ its present stale ownStep => stale.step (nobody id own ns its present) ownStep)
    stepped
  exact ⟨between, within⟩

/-- A callback of the namespace is on its lists, and the array of the worker
holds its version back. -/
structure CallbackKept (id : NsId) (callback : Callback ObjId) (shared : SharedWorkerState) :
    Prop where
  turns : TurnsOk shared
  stale : ArrayStale callback.version shared
  listed : ∃ ns, shared.ns id = some ns ∧ callback ∈ ns.callbacks

theorem CallbackKept.step {id : NsId} {callback : Callback ObjId} {action : SharedWorkerAction}
    {shared after : SharedWorkerState} (kept : CallbackKept id callback shared)
    (nobody : WorkerMeetsNobody shared action)
    (stepped : sharedWorkerStep nsMax workerTi shared action = some after) :
    CallbackKept id callback after := by
  obtain ⟨turns, stale, ns, present, listed⟩ := kept
  refine ⟨turns.step stepped, stale.step turns nobody stepped, ?_⟩
  obtain ⟨ns', present'⟩ := installed_of_step stepped present
  refine ⟨ns', present', ?_⟩
  cases nsMove_of_step stepped present' with
  | alone _ _ same => exact Option.some.inj (present.symm.trans same) ▸ listed
  | installed absent => simp [present] at absent
  | handed _ same =>
      obtain rfl := Option.some.inj (present.symm.trans same)
      exact listed
  | own _ _ own same turn ownStep =>
      obtain rfl := Option.some.inj (present.symm.trans same)
      refine callback_stays (fun worker => ?_) ownStep listed
      obtain ⟨visited, found, within⟩ := stale.within id (turn (worker ▸ rfl))
      exact Option.some.inj (present.symm.trans found) ▸ within

/-- As long as no pass of the worker meets a reader, in any namespace, it never
invokes the destructors of the callbacks whose version is in the range that the
first cell of its array holds when it comes to the next namespace. -/
theorem worker_keeps_callbacks_without_readers {front actions : List SharedWorkerAction}
    {begun final : SharedWorkerState} {next id : NsId} {before : NamespaceState}
    {callback : Callback ObjId}
    (reached : run (sharedWorkerStep nsMax workerTi) (sharedWorkerInit ranges) front =
      some begun)
    (loads : begun.worker = .loadNs next)
    (left : (begun.ranges 0).Contains callback.version)
    (installed : begun.ns id = some before) (queued : callback ∈ before.callbacks)
    (alone : Meets (sharedWorkerStep nsMax workerTi) WorkerMeetsNobody begun actions)
    (ran : run (sharedWorkerStep nsMax workerTi) begun actions = some final) :
    ∃ after, final.ns id = some after ∧ callback ∈ after.callbacks := by
  have turns : TurnsOk begun :=
    run_preserves TurnsOk (fun _ _ _ turns stepped => turns.step stepped)
      (turnsOk_init ranges) reached
  have stale : ArrayStale callback.version begun := ⟨fun _ _ => left, by simp [loads]⟩
  have kept : CallbackKept id callback final :=
    run_preserves_of_meets (CallbackKept id callback)
      (fun _ _ _ nobody kept stepped => kept.step nobody stepped) alone
      ⟨turns, stale, before, installed, queued⟩ ran
  exact kept.listed

def SharedWorkerAction.byReader : SharedWorkerAction → Bool
  | .inNs _ action => action.byReader
  | _ => false

theorem workerMeetsNobody_of_outside {shared : SharedWorkerState}
    {actions : List SharedWorkerAction}
    (outside : ∀ id ns, shared.ns id = some ns → NobodyInside ns)
    (others : ∀ action ∈ actions, action.byReader = false) :
    Meets (sharedWorkerStep nsMax workerTi) WorkerMeetsNobody shared actions := by
  induction actions generalizing shared with
  | nil => trivial
  | cons action rest ih =>
      refine ⟨fun id own ns _ present _ _ _ _ _ ti _ _ _ => outside id ns present ti,
        fun after stepped => ih ?_ ?_⟩
      · apply namespaces_preserve NobodyInside (fun _ _ => rfl) (fun _ _ outside => outside)
          (fun _ _ _ other outside stepped => outside.step other stepped) _ outside stepped
        rintro id own ns rfl _
        exact others _ List.mem_cons_self
      · exact fun later member => others later (List.mem_cons_of_mem _ member)

/-- An iteration of the worker in a namespace with so many threads outside,
which takes so many steps to its pass and keeps the one callback there. -/
def keepingActions (id : NsId) (steps threads : Nat) : List SharedWorkerAction :=
  (List.replicate steps NamespaceAction.worker ++ passActions .worker threads ++
    List.replicate 9 NamespaceAction.worker).map (.inNs id)

/-- The worker goes round the two namespaces twice. -/
def roundsActions : List SharedWorkerAction :=
  [.loadWorkerNs] ++ keepingActions 1 4 1 ++ [.loadWorkerNs, .loadWorkerNs] ++
    keepingActions 0 3 2 ++ [.loadWorkerNs] ++ keepingActions 1 3 1

/-- Thread `1` has left namespace `0`, and nobody was ever inside namespace `1`. -/
theorem worker_keeps_callbacks_of_sharedArray :
    ∃ begun final, run (sharedWorkerStep 2 0) (sharedWorkerInit fun _ => ⟨0, 0⟩)
        (sharedArrayActions ++ [.inNs 0 (.reader 1 .lrcuReadUnlockNs)]) = some begun ∧
      run (sharedWorkerStep 2 0) begun roundsActions = some final ∧
        ∃ after, final.ns 1 = some after ∧ ⟨0, 3⟩ ∈ after.callbacks := by
  obtain ⟨begun, final, ns, before, reached, ran, loads, left, other, installed, absent, queued,
      outsideOther, outside⟩ :
      ∃ begun final ns before,
        run (sharedWorkerStep 2 0) (sharedWorkerInit fun _ => ⟨0, 0⟩)
            (sharedArrayActions ++ [.inNs 0 (.reader 1 .lrcuReadUnlockNs)]) = some begun ∧
          run (sharedWorkerStep 2 0) begun roundsActions = some final ∧
            begun.worker = .loadNs 1 ∧ (begun.ranges 0).Contains 3 ∧ begun.ns 0 = some ns ∧
              begun.ns 1 = some before ∧ (∀ id, begun.ns (id + 2) = none) ∧
                ⟨0, 3⟩ ∈ before.callbacks ∧ NobodyInside ns ∧ NobodyInside before := by
    refine ⟨_, _, _, _, rfl, rfl, rfl, by decide, rfl, rfl, fun _ => rfl, by decide,
      fun i => ?_, fun _ => rfl⟩
    match i with
    | 0 | 1 | _ + 2 => rfl
  refine ⟨begun, final, reached, ran, ?_⟩
  apply worker_keeps_callbacks_without_readers reached loads left installed queued _ ran
  apply workerMeetsNobody_of_outside _ (by decide)
  intro id found present
  match id with
  | 0 => exact Option.some.inj (other.symm.trans present) ▸ outsideOther
  | 1 => exact Option.some.inj (installed.symm.trans present) ▸ outside
  | id + 2 => exact absurd ((absent id).symm.trans present) (by simp)

end LightRcu
