import LightRcu.GracePeriod
import LightRcu.SharedWorker
import LightRcu.SynchronizeSafety

/-!
# Readers are safe in every namespace

The array that the worker carries from one namespace to the next may make a
pass hold back too much, but never too little: whatever it contains, no
namespace loses the protection of its readers.
-/

namespace LightRcu

open Execution

variable {state next : NamespaceState}

/-! ## Nobody holds a destroyed object -/

/-- What a thread holds has not been destroyed, and is not about to be. -/
structure ReadersSafe (state : NamespaceState) : Prop where
  kept : GraceKept state
  intact : ∀ i, ∀ obj ∈ state.held i, state.stage obj ≠ .destroyed

namespace ReadersSafe

theorem init (workerTi : ReaderId) (ranges : Nat → LrcuRange) :
    ReadersSafe (namespaceInit workerTi ranges) where
  kept := .init workerTi ranges
  intact i obj held := by simp [namespaceInit] at held

/-- No invariant depends on the array between two passes. -/
theorem setRanges (safe : ReadersSafe state) (ranges : Nat → LrcuRange) :
    ReadersSafe { state with ranges := ranges } := by
  obtain ⟨⟨⟨ok, noneHung, versions, depths⟩, objects, stamps, grace⟩, intact⟩ := safe
  exact
    { kept :=
        { holds := ⟨⟨ok.readers, ok.passes, ok.locked⟩,
            ⟨noneHung.hungThreads, noneHung.registered⟩, versions, depths⟩
          objects := ⟨objects.published, objects.once, objects.listed, objects.queued⟩
          stamps := stamps
          grace := ⟨grace.inside, grace.older, grace.holdsBack⟩ }
      intact := intact }

theorem not_destroys (safe : ReadersSafe state) {i : ReaderId} {obj : ObjId}
    (held : obj ∈ state.held i) : state.destroys ≠ some obj := by
  intro destroys
  obtain ⟨version, index, rbt, member, pc, free⟩ := destroys_cases destroys
  have holdsBack := safe.kept.grace.holdsBack i ⟨obj, version⟩ member held
  rcases pc with pc | pc
  all_goals
    rw [pc, HoldsBack, free] at holdsBack
    exact absurd holdsBack (by simp)

private theorem destroys_of_workerMove {obj : ObjId} (move : WorkerMove state next)
    (destroyed : next.stage obj = .destroyed) :
    state.stage obj = .destroyed ∨ state.destroys = some obj := by
  have of_setStage : ∀ callback : Callback ObjId,
      (state.setStage callback.obj .destroyed).stage obj = .destroyed →
        state.stage obj = .destroyed ∨ callback.obj = obj := by
    intro callback destroyed
    by_cases same : obj = callback.obj
    · exact Or.inr same.symm
    · exact Or.inl (by simpa [NamespaceState.setStage, Function.update_of_ne same] using destroyed)
  cases move
  case destroy index rbt pc callback found free =>
    refine (of_setStage callback destroyed).imp_right ?_
    rintro rfl
    simp [NamespaceState.destroys, pc, found, free]
  case destroyHead index rbt pc callback found free =>
    refine (of_setStage callback destroyed).imp_right ?_
    rintro rfl
    simp [NamespaceState.destroys, pc, found, free]
  all_goals exact Or.inl destroyed

theorem step {action : NamespaceAction} (safe : ReadersSafe state) (quiet : Quiet state action)
    (stepped : namespaceStep state action = some next) : ReadersSafe next where
  kept := safe.kept.step quiet stepped
  intact i obj held destroyed := by
    obtain ⟨_, _, origin⟩ := held_of_step safe.kept.holds.depths quiet.depth
      (fun obj held => (safe.kept.grace.inside i obj held).1) stepped held
    have before : state.stage obj ≠ .destroyed := by
      rcases origin with kept | ⟨cell, stored⟩
      · exact safe.intact i obj kept
      · simp [safe.kept.objects.published cell obj stored]
    rcases stage_of_step safe.kept.objects stepped obj with same | move
    · exact before (same.symm.trans destroyed)
    · rw [destroyed] at move
      generalize stage : state.stage obj = stageBefore at move
      cases move with
      | destroy =>
          -- the worker changes nothing that a thread holds
          have kept : obj ∈ state.held i := by
            rwa [(workerMove_of_step stepped).frame.held] at held
          rcases destroys_of_workerMove (workerMove_of_step stepped) destroyed with
            already | destroys
          · exact before already
          · exact safe.not_destroys kept destroys

end ReadersSafe

variable {nsMax : Nat} {workerTi : ReaderId} {ranges : Nat → LrcuRange}

theorem readersSafe_of_step {action : SharedWorkerAction} {before after : SharedWorkerState}
    (quiet : InNamespaces Quiet before action)
    (safe : ∀ id ns, before.ns id = some ns → ReadersSafe ns)
    (stepped : sharedWorkerStep nsMax workerTi before action = some after) :
    ∀ id ns, after.ns id = some ns → ReadersSafe ns :=
  namespaces_preserve ReadersSafe (ReadersSafe.init workerTi)
    (fun _ ranges safe => safe.setRanges ranges)
    (fun _ _ _ quiet safe stepped => safe.step quiet stepped) quiet safe stepped

theorem readersSafe_of_run {actions : List SharedWorkerAction} {final : SharedWorkerState}
    (quiet : Meets (sharedWorkerStep nsMax workerTi) (InNamespaces Quiet)
      (sharedWorkerInit ranges) actions)
    (ran : run (sharedWorkerStep nsMax workerTi) (sharedWorkerInit ranges) actions =
      some final) :
    ∀ id ns, final.ns id = some ns → ReadersSafe ns := by
  refine run_preserves_of_meets
    (fun state : SharedWorkerState => ∀ id ns, state.ns id = some ns → ReadersSafe ns)
    (fun _ _ _ quiet safe stepped => readersSafe_of_step quiet safe stepped) quiet ?_ ran
  intro id ns found
  simp [sharedWorkerInit] at found

/-- In no namespace does a thread hold a pointer to an object, dereferenced in a
read section that it is still in, once the destructor of the object has been
invoked, or while the worker is about to invoke it. -/
theorem held_not_destroyed {actions : List SharedWorkerAction} {final : SharedWorkerState}
    (quiet : Meets (sharedWorkerStep nsMax workerTi) (InNamespaces Quiet)
      (sharedWorkerInit ranges) actions)
    (ran : run (sharedWorkerStep nsMax workerTi) (sharedWorkerInit ranges) actions =
      some final)
    {id : NsId} {ns : NamespaceState} (installed : final.ns id = some ns) {i : ReaderId}
    {obj : ObjId} (held : obj ∈ ns.held i) :
    ns.stage obj ≠ .destroyed ∧ ns.destroys ≠ some obj := by
  have safe := readersSafe_of_run quiet ran id ns installed
  exact ⟨safe.intact i obj held, safe.not_destroys held⟩

/-- The time that an action asks for, if it is a visit. -/
def SharedWorkerAction.now : SharedWorkerAction → Nat
  | .inNs _ action => action.now
  | _ => 0

/-- In every namespace, the version and the nesting depths have only been counted
up to a bound. -/
def AllCountedTo (bound : Nat) (state : SharedWorkerState) : Prop :=
  ∀ id ns, state.ns id = some ns → CountedTo bound ns

theorem allCountedTo_init (ranges : Nat → LrcuRange) :
    AllCountedTo 1 (sharedWorkerInit ranges) := by
  intro id ns found
  simp [sharedWorkerInit] at found

theorem AllCountedTo.step {bound : Nat} {action : SharedWorkerAction}
    {before after : SharedWorkerState} (counted : AllCountedTo bound before)
    (positive : 1 ≤ bound) (small : bound < 2 ^ 31 - 1)
    (stepped : sharedWorkerStep nsMax workerTi before action = some after) :
    AllCountedTo (bound + 1) after := by
  intro id ns found
  cases nsMove_of_step stepped found with
  | alone _ _ present => exact (counted id ns present).mono (Nat.le_succ bound)
  | installed => exact (CountedTo.init workerTi before.ranges).mono (by omega)
  | handed ns present =>
      obtain ⟨version, depth⟩ := (counted id ns present).mono (Nat.le_succ bound)
      exact ⟨version, depth⟩
  | own ns _ own present _ ownStep => exact (counted id ns present).step small ownStep

/-- In a run of the handler that is short and early, all namespaces are quiet. -/
theorem quiet_of_early_shared {bound : Nat} {state : SharedWorkerState}
    {actions : List SharedWorkerAction} (counted : AllCountedTo bound state)
    (positive : 1 ≤ bound) (short : bound + actions.length < 2 ^ 31)
    (early : ∀ action ∈ actions, action.now < lrcuHangTimeout) :
    Meets (sharedWorkerStep nsMax workerTi) (InNamespaces Quiet) state actions := by
  induction actions generalizing bound state with
  | nil => trivial
  | cons action rest ih =>
      rw [List.length_cons] at short
      refine ⟨?_, fun next stepped => ?_⟩
      · rintro id own ns rfl present
        obtain ⟨version, depth⟩ := (counted id ns present).fits (by omega) own
        exact ⟨hangTestFails_of_early (early (.inNs id own) List.mem_cons_self), version, depth⟩
      · exact ih (counted.step positive (by omega) stepped) (by omega) (by omega)
          fun later member => early later (List.mem_cons_of_mem action member)

/-- Thread `1` dereferences object `0` in namespace `0`, a writer replaces it,
and the worker makes a pass.  In namespace `1`, where it goes next, nobody is in
a read section, and an object is queued as well. -/
def sharedArrayActions : List SharedWorkerAction :=
  [.lrcuNsInit 0, .lrcuNsInit 1] ++
    ([.reader 1 .lrcuThreadSetNs,
      .writer .lrcuSpinLock, .writer .bumpVersion,
      .writer (.assignBarrier 0 (some 0)), .writer .assignStore,
      .reader 1 .lockCount, .reader 1 .lockTest, .reader 1 .lockStore,
      .reader 1 (.lrcuDereference 0),
      .writer (.assignBarrier 0 none), .writer .assignStore, .writer .lrcuWriteUnlockNs,
      .call 0 (.loadVersion false), .call 0 .insert] : List NamespaceAction).map (.inNs 0) ++
    ([.writer .lrcuWriteBarrierNs, .writer .lrcuWriteBarrierNs,
      .call 0 .retire, .call 0 (.loadVersion false), .call 0 .insert] :
        List NamespaceAction).map (.inNs 1) ++
    [.loadWorkerNs] ++
    (List.replicate 4 NamespaceAction.worker ++ passActions .worker 2 ++
      List.replicate 8 NamespaceAction.worker).map (.inNs 0)

theorem held_not_destroyed_of_sharedArray :
    ∃ final ns, run (sharedWorkerStep 2 0) (sharedWorkerInit fun _ => ⟨0, 0⟩)
        sharedArrayActions = some final ∧
      final.ns 0 = some ns ∧ ns.held 1 = [0] ∧ ns.stage 0 ≠ .destroyed ∧
        ns.destroys ≠ some 0 := by
  obtain ⟨final, ns, ran, installed, held⟩ : ∃ final ns,
      run (sharedWorkerStep 2 0) (sharedWorkerInit fun _ => ⟨0, 0⟩) sharedArrayActions =
        some final ∧ final.ns 0 = some ns ∧ ns.held 1 = [0] :=
    ⟨_, _, rfl, rfl, rfl⟩
  refine ⟨final, ns, ran, installed, held, ?_⟩
  exact held_not_destroyed
    (quiet_of_early_shared (allCountedTo_init _) le_rfl (by decide) (by decide)) ran installed
    (held ▸ List.mem_singleton_self 0)

/-! ## Waiting for the readers of one namespace -/

theorem AwaitsReader.setRanges {c : CallerId} {i : ReaderId} (awaits : AwaitsReader c i state)
    (ranges : Nat → LrcuRange) : AwaitsReader c i { state with ranges := ranges } :=
  ⟨awaits.inside, awaits.synchronizing, awaits.loaded⟩

/-- The caller still waits for the thread in the namespace, and the readers of all
namespaces are safe. -/
def AwaitsIn (id : NsId) (c : CallerId) (i : ReaderId) (state : SharedWorkerState) : Prop :=
  (∀ id ns, state.ns id = some ns → ReadersSafe ns) ∧
    ∃ ns, state.ns id = some ns ∧ AwaitsReader c i ns

theorem AwaitsIn.step {id : NsId} {c : CallerId} {i : ReaderId} {action : SharedWorkerAction}
    {before after : SharedWorkerState} (awaits : AwaitsIn id c i before)
    (quiet : InNamespaces Quiet before action)
    (stepped : sharedWorkerStep nsMax workerTi before action = some after)
    (stays : ¬ ∃ ns ∈ after.ns id, (ns.lns i).counter = 0) : AwaitsIn id c i after := by
  obtain ⟨safe, ns, present, awaits⟩ := awaits
  obtain ⟨ns', present'⟩ := installed_of_step stepped present
  refine ⟨readersSafe_of_step quiet safe stepped, ns', present', ?_⟩
  cases nsMove_of_step stepped present' with
  | alone _ _ same => exact Option.some.inj (present.symm.trans same) ▸ awaits
  | installed absent => simp [present] at absent
  | handed _ same =>
      obtain rfl := Option.some.inj (present.symm.trans same)
      exact awaits.setRanges before.ranges
  | own _ _ own same _ ownStep =>
      obtain rfl := Option.some.inj (present.symm.trans same)
      have holds := safe id ns present
      apply awaits.step holds.kept.holds (quiet id own ns rfl present) ownStep
      exact fun left => stays ⟨ns', present', left⟩

/-- Once a call of `lrcu_synchronize_ns` is out of its loop, every thread that
was inside a read section of that namespace when it was entered has left that
section, whatever goes on in the other namespaces. -/
theorem synchronize_outwaits_own_readers {front actions : List SharedWorkerAction}
    {entered begun final : SharedWorkerState} {id : NsId} {c : CallerId} {barrier : Bool}
    {localRanges : Nat → LrcuRange} {before after : NamespaceState} {i : ReaderId}
    (quiet : Meets (sharedWorkerStep nsMax workerTi) (InNamespaces Quiet)
      (sharedWorkerInit ranges) (front ++ .inNs id (.enter c barrier localRanges) :: actions))
    (reached : run (sharedWorkerStep nsMax workerTi) (sharedWorkerInit ranges) front =
      some entered)
    (installed : entered.ns id = some before) (inside : before.Inside i)
    (enters : sharedWorkerStep nsMax workerTi entered
      (.inNs id (.enter c barrier localRanges)) = some begun)
    (ran : run (sharedWorkerStep nsMax workerTi) begun actions = some final)
    (found : final.ns id = some after) (returned : ¬ (after.caller c).Synchronizing) :
    Sometime (sharedWorkerStep nsMax workerTi)
      (fun state => ∃ ns ∈ state.ns id, (ns.lns i).counter = 0) begun actions := by
  have quietEnter := quiet.append_right reached
  have safe := readersSafe_of_run quiet.append_left reached
  have awaits : AwaitsIn id c i begun := by
    obtain ⟨ns, present⟩ := installed_of_step enters installed
    refine ⟨readersSafe_of_step quietEnter.1 safe enters, ns, present, ?_⟩
    cases nsMove_of_step enters present with
    | alone _ _ _ elsewhere => exact absurd rfl (elsewhere _)
    | own ns' _ _ before' _ entering =>
        obtain rfl := Option.some.inj (installed.symm.trans before')
        obtain ⟨_, rfl⟩ := enter_shape entering
        refine ⟨inside, ?_, fun barrier' currentVersion pass waiting => ?_⟩
        · simp [NamespaceState.setCaller, CallerPc.Synchronizing]
        · simp [NamespaceState.setCaller] at waiting
  have outcome := sometime_or_preserved (AwaitsIn id c i)
    (fun _ _ _ quiet awaits stepped stays => awaits.step quiet stepped stays)
    (quietEnter.2 begun enters) awaits ran
  rcases outcome with left | waits
  · exact left
  · obtain ⟨_, ns, present, awaits⟩ := waits
    obtain rfl := Option.some.inj (found.symm.trans present)
    exact absurd awaits.synchronizing returned

def enterActions : List NamespaceAction :=
  [.reader 1 .lrcuThreadSetNs, .reader 1 .lockCount, .reader 1 .lockTest, .reader 1 .lockStore]

/-- A caller waits in namespace `1` for thread `1`, which leaves and enters
again there, and stays in its section of namespace `0`. -/
def synchronizeOneActions : List SharedWorkerAction :=
  ([.caller 0] ++ passActions (.caller 0) 2 ++
    [.caller 0, .reader 1 .lrcuReadUnlockNs, .writer .lrcuWriteBarrierNs,
      .reader 1 .lockCount, .reader 1 .lockTest, .reader 1 .lockStore] ++
    passActions (.caller 0) 2 ++ [.caller 0] : List NamespaceAction).map (.inNs 1)

theorem synchronize_outwaits_own_readers_of_both :
    ∃ entered begun final,
      run (sharedWorkerStep 2 0) (sharedWorkerInit fun _ => ⟨0, 0⟩)
          ([.lrcuNsInit 0, .lrcuNsInit 1] ++ enterActions.map (.inNs 0) ++
            enterActions.map (.inNs 1)) = some entered ∧
        sharedWorkerStep 2 0 entered (.inNs 1 (.enter 0 false fun _ => ⟨0, 0⟩)) = some begun ∧
          run (sharedWorkerStep 2 0) begun synchronizeOneActions = some final ∧
            Sometime (sharedWorkerStep 2 0)
              (fun state => ∃ ns ∈ state.ns 1, (ns.lns 1).counter = 0) begun
                synchronizeOneActions := by
  obtain ⟨entered, begun, final, before, after, reached, enters, ran, present, found, idle,
      inside⟩ :
      ∃ entered begun final before after,
        run (sharedWorkerStep 2 0) (sharedWorkerInit fun _ => ⟨0, 0⟩)
            ([.lrcuNsInit 0, .lrcuNsInit 1] ++ enterActions.map (.inNs 0) ++
              enterActions.map (.inNs 1)) = some entered ∧
          sharedWorkerStep 2 0 entered (.inNs 1 (.enter 0 false fun _ => ⟨0, 0⟩)) = some begun ∧
            run (sharedWorkerStep 2 0) begun synchronizeOneActions = some final ∧
              entered.ns 1 = some before ∧ final.ns 1 = some after ∧
                after.caller 0 = .idle ∧ before.Inside 1 :=
    ⟨_, _, _, _, _, rfl, rfl, rfl, rfl, rfl, rfl, Or.inl ⟨rfl, by decide⟩⟩
  refine ⟨entered, begun, final, reached, enters, ran, ?_⟩
  refine synchronize_outwaits_own_readers
    (quiet_of_early_shared (allCountedTo_init _) le_rfl (by decide) ?_) reached present inside
    enters ran found ?_
  · decide
  · simp [idle, CallerPc.Synchronizing]

end LightRcu
