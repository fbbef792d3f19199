import LightRcu.HangTimes

/-!
# Recovery from a hang

A thread on `ns->hung_threads` that has left its read section and entered a new
one is told from one that hangs by the version of its section, which has to lie
above the version that was recorded when it was declared hung.  A section that
begins before the version of the namespace has moved on has the recorded
version again.  Passes then take it for the old section, and hold back no
version above the recorded one.
-/

namespace LightRcu

open Execution

variable {state next : NamespaceState}

/-! ## Threads that were declared hung -/

/-- How far a thread has come since it was declared hung. -/
inductive HangStage
  | usual
  /-- in the read section in which it was declared hung -/
  | hung
  /-- out of that section, and not yet behind the lock of another one -/
  | outside
  /-- behind the outermost lock of a new section -/
  | recovered
  deriving DecidableEq, Repr

/-- A namespace, and what is remembered of the threads and of the loads of the
passes. -/
structure RecoveryState where
  ns : NamespaceState
  stage : ReaderId → HangStage
  /-- how many outermost locks a thread has completed -/
  sections : ReaderId → Nat
  /-- the new section in which the pass has loaded the version of its thread -/
  versionSection : PassOwner → Option Nat
  /-- the new section in which it has loaded the counter -/
  counterSection : PassOwner → Option Nat

def recoveryInit (workerTi : ReaderId) (ranges : Nat → LrcuRange) : RecoveryState where
  ns := namespaceInit workerTi ranges
  stage := fun _ => .usual
  sections := fun _ => 0
  versionSection := fun _ => none
  counterSection := fun _ => none

/-- The thread whose outermost lock the action completes. -/
def NamespaceAction.completesLock : NamespaceAction → Option ReaderId
  | .reader i .lockStore => some i
  | _ => none

/-- The thread that a pass is at. -/
def NamespaceState.visitedBy (state : NamespaceState) (owner : PassOwner) : Option ReaderId :=
  match state.passOf owner with
  | some (.visiting loop _ index _ _ _) => (state.lists.walked loop)[index]?
  | _ => none

namespace RecoveryState

def stageAfter (state : RecoveryState) (action : NamespaceAction) (next : NamespaceState)
    (i : ReaderId) : HangStage :=
  if declaresHung state.ns action = some i then
    if (next.lns i).counter = 0 then .outside else .hung
  else if state.stage i = .usual then .usual
  else if (next.lns i).counter = 0 then .outside
  else if state.stage i = .outside ∧ action.completesLock = some i then .recovered
  else state.stage i

/-- The new section that the thread of a pass is in. -/
def sectionOf (state : RecoveryState) (owner : PassOwner) : Option Nat :=
  (state.ns.visitedBy owner).bind fun ti =>
    if state.stage ti = .recovered then some (state.sections ti) else none

/-- A load of a pass replaces what is remembered of its last one. -/
def afterLoad (state : RecoveryState) (load : PassAction) (before : PassOwner → Option Nat) :
    NamespaceAction → PassOwner → Option Nat
  | .pass owner action =>
      if action = load then Function.update before owner (state.sectionOf owner) else before
  | _ => before

/-- What is remembered behind a step of the namespace. -/
def observe (state : RecoveryState) (action : NamespaceAction) (next : NamespaceState) :
    RecoveryState where
  ns := next
  stage := state.stageAfter action next
  sections := fun i =>
    if action.completesLock = some i then state.sections i + 1 else state.sections i
  versionSection := state.afterLoad .loadLnsVersion state.versionSection action
  counterSection := state.afterLoad .loadLnsCounter state.counterSection action

end RecoveryState

def recoveryStep (state : RecoveryState) (action : NamespaceAction) : Option RecoveryState :=
  (namespaceStep state.ns action).map (state.observe action)

/-! ## What a pass adds for a recovered thread -/

/-- The action is the visit of a thread that the pass has sampled in one of its
new sections. -/
def SamplesRecovered (state : RecoveryState) (action : NamespaceAction) (loop : PassLoop)
    (currentVersion : Nat) (ti : ReaderId) (sample : Sample) : Prop :=
  ∃ owner index rbt entered,
    action = .pass owner (.visit sample.now) ∧
      state.ns.passOf owner =
        some (.visiting loop currentVersion index (some sample.lns.version)
          (some sample.lns.counter) rbt) ∧
      (state.ns.lists.walked loop)[index]? = some ti ∧
      state.versionSection owner = some entered ∧ state.counterSection owner = some entered

/-- The range that a visit adds for a recovered thread ends at the version of
the pass. -/
def ProtectsRecovered (state : RecoveryState) (action : NamespaceAction) : Prop :=
  ∀ loop currentVersion ti sample,
    SamplesRecovered state action loop currentVersion ti sample →
      ∃ range, (loop.visit currentVersion (state.ns.lists.info ti) sample).range = some range ∧
        range.maxv = currentVersion

/-- A visit of `ns->hung_threads` finds the version of a recovered thread above
the one that was recorded when it was declared hung, or the version of its pass
is still the recorded one. -/
def TellsRecovered (state : RecoveryState) (action : NamespaceAction) : Prop :=
  ∀ currentVersion ti sample,
    SamplesRecovered state action .hungThreads currentVersion ti sample →
      (state.ns.lists.info ti).hungLns.version < sample.lns.version ∨
        (state.ns.lists.info ti).hungLns.version = currentVersion

/-- The outermost lock of a thread that is on `ns->hung_threads` and has left its
section loads a version above the one that was recorded when it was declared
hung. -/
def LocksNewVersion (state : RecoveryState) (action : NamespaceAction) : Prop :=
  ∀ i, action = .reader i .lockTest → state.ns.reader i = .entered →
    (state.ns.lns i).counter = 1 → state.stage i = .outside →
      i ∈ state.ns.lists.hungThreads →
        (state.ns.lists.info i).hungLns.version < state.ns.version

/-! ## New sections -/

/-- The thread is in a new section with the version, or its lock has loaded the
version and is about to store it. -/
def NewSection (state : RecoveryState) (i : ReaderId) (version : Nat) : Prop :=
  state.stage i = .outside ∧ state.ns.reader i = .storing version ∨
    state.stage i = .recovered ∧ (state.ns.lns i).version = version

theorem recovered_of_stageAfter {state : RecoveryState} {action : NamespaceAction}
    {next : NamespaceState} {i : ReaderId} (after : state.stageAfter action next i = .recovered) :
    declaresHung state.ns action ≠ some i ∧ (next.lns i).counter ≠ 0 ∧
      (state.stage i = .recovered ∨
        state.stage i = .outside ∧ action.completesLock = some i) := by
  unfold RecoveryState.stageAfter at after
  split_ifs at after with declared _ usual left locks
  · exact ⟨declared, left, Or.inr locks⟩
  · exact ⟨declared, left, Or.inl after⟩

theorem outside_of_stageAfter {state : RecoveryState} {action : NamespaceAction}
    {next : NamespaceState} {i : ReaderId} (after : state.stageAfter action next i = .outside)
    (counted : (next.lns i).counter ≠ 0) :
    declaresHung state.ns action ≠ some i ∧ state.stage i = .outside ∧
      action.completesLock ≠ some i := by
  unfold RecoveryState.stageAfter at after
  split_ifs at after with declared usual locks
  · exact ⟨declared, after, fun completes => locks ⟨after, completes⟩⟩

theorem lockStore_of_completesLock {action : NamespaceAction} {i : ReaderId}
    (completes : action.completesLock = some i) : action = .reader i .lockStore := by
  unfold NamespaceAction.completesLock at completes
  split at completes
  next j =>
    obtain rfl := Option.some.inj completes
    rfl
  next => simp at completes

/-- A thread comes between the load and the store of a version by the load. -/
theorem storing_of_step {action : NamespaceAction} {i : ReaderId} {version : Nat}
    (stepped : namespaceStep state action = some next)
    (storing : next.reader i = .storing version) :
    state.reader i = .storing version ∨
      action = .reader i .lockTest ∧ state.reader i = .entered ∧ (state.lns i).counter = 1 ∧
        version = state.version := by
  by_cases own : ∃ own, action = .reader i own
  · obtain ⟨own, rfl⟩ := own
    cases readerMove_of_step stepped with
    | lockFirst entered first =>
        refine Or.inr ⟨rfl, entered, first, ?_⟩
        simpa [NamespaceState.setReader, eq_comm] using storing
    | lockCount | lockNested | lockStore => simp [NamespaceState.setReader] at storing
    | dereference | dereferenceNull | unlockLast | unlockNested | setNs | delNs =>
        exact Or.inl storing
  · rw [(reader_eq_of_step stepped (not_exists.mp own)).2.1] at storing
    exact Or.inl storing

/-! ## What is remembered of a load -/

theorem afterLoad_of_ne {state : RecoveryState} {load : PassAction}
    {before : PassOwner → Option Nat} {action : NamespaceAction} {owner : PassOwner}
    (other : action ≠ .pass owner load) :
    state.afterLoad load before action owner = before owner := by
  cases action with
  | pass owner' own =>
      simp only [RecoveryState.afterLoad]
      split_ifs with same
      · subst same
        exact Function.update_of_ne (fun equal => other (by rw [equal])) _ _
      · rfl
  | _ => rfl

theorem afterLoad_self {state : RecoveryState} {load : PassAction}
    {before : PassOwner → Option Nat} {owner : PassOwner} :
    state.afterLoad load before (.pass owner load) owner = state.sectionOf owner := by
  simp [RecoveryState.afterLoad]

theorem recovered_of_sectionOf {state : RecoveryState} {owner : PassOwner} {loop : PassLoop}
    {currentVersion index entered : Nat} {version : Option Nat} {counter : Option Int}
    {rbt : LrcuRangetree} {ti : ReaderId}
    (found : state.ns.passOf owner =
      some (.visiting loop currentVersion index version counter rbt))
    (here : (state.ns.lists.walked loop)[index]? = some ti)
    (inside : state.sectionOf owner = some entered) : state.stage ti = .recovered := by
  simp only [RecoveryState.sectionOf, NamespaceState.visitedBy, found, here, Option.bind_some,
    Option.ite_none_right_eq_some] at inside
  exact inside.1

/-- What holds of the threads and of the loads in every run. -/
structure RecoveryOk (state : RecoveryState) : Prop where
  ns : NamespaceOk state.ns
  inside : ∀ i, state.stage i = .recovered → state.ns.Within i
  counted : ∀ owner loop currentVersion index version counter rbt entered,
    state.ns.passOf owner =
      some (.visiting loop currentVersion index version (some counter) rbt) →
    state.counterSection owner = some entered → counter ≠ 0

namespace RecoveryOk

theorem init (workerTi : ReaderId) (ranges : Nat → LrcuRange) :
    RecoveryOk (recoveryInit workerTi ranges) where
  ns := NamespaceOk.init workerTi ranges
  inside _ recovered := by simp [recoveryInit] at recovered
  counted _ _ _ _ _ _ _ _ _ entered := by simp [recoveryInit] at entered

variable {state : RecoveryState} {next : NamespaceState} {action : NamespaceAction}

private theorem inside_of_completesLock (ok : RecoveryOk state)
    (stepped : namespaceStep state.ns action = some next) {i : ReaderId}
    (completes : action.completesLock = some i) : next.Within i := by
  obtain rfl := lockStore_of_completesLock completes
  have move : ReaderMove state.ns i .lockStore next := readerMove_of_step stepped
  cases move with
  | lockStore version storing =>
      have counted := (ok.ns.readers i).storing version storing
      simp [NamespaceState.Within, NamespaceState.setReader, NamespaceState.setLns, counted]

theorem step (ok : RecoveryOk state) (stepped : namespaceStep state.ns action = some next) :
    RecoveryOk (state.observe action next) where
  ns := ok.ns.step stepped
  inside i recovered := by
    obtain ⟨_, counted, stays | ⟨_, completes⟩⟩ := recovered_of_stageAfter recovered
    · have word := (ok.ns.readers i).counter
      rcases within_of_step word (ok.inside i stays) stepped with ⟨inside, _⟩ | left
      · exact inside
      · exact absurd left counted
    · exact ok.inside_of_completesLock stepped completes
  counted owner loop currentVersion index version counter rbt entered found inside := by
    change state.afterLoad .loadLnsCounter state.counterSection action owner = _ at inside
    rcases passOf_of_step stepped found with
      ⟨own, pass, middle, rfl, before, move, _⟩ | ⟨before, others⟩ | ⟨ranges, started⟩
    · cases move with
      | loadLnsVersion =>
          rw [afterLoad_of_ne (by simp)] at inside
          exact ok.counted _ _ _ _ _ _ _ _ before inside
      | loadLnsCounter loop currentVersion index version rbt ti here =>
          rw [afterLoad_self] at inside
          exact (ok.inside ti (recovered_of_sectionOf before here inside)).1
    · rw [afterLoad_of_ne (others _)] at inside
      exact ok.counted _ _ _ _ _ _ _ _ before inside
    · cases started

end RecoveryOk

/-- A visit of `ns->hung_threads` adds a range up to the version of the pass for
an active thread, if it finds a new version or is of the recorded one. -/
theorem visitHungThread_range_iff {currentVersion : Nat} {info : LrcuThreadInfo} {sample : Sample}
    (active : sample.lns.counter ≠ 0) :
    (∃ range, (visitHungThread currentVersion info sample).range = some range ∧
        range.maxv = currentVersion) ↔
      info.hungLns.version < sample.lns.version ∨ info.hungLns.version = currentVersion := by
  by_cases newer : info.hungLns.version < sample.lns.version
  · simp [visitHungThread, active, newer]
  · simp [visitHungThread, active, newer]

theorem protectsRecovered_iff {state : RecoveryState} {action : NamespaceAction}
    (ok : RecoveryOk state) : ProtectsRecovered state action ↔ TellsRecovered state action := by
  have active : ∀ {loop currentVersion ti sample},
      SamplesRecovered state action loop currentVersion ti sample → sample.lns.counter ≠ 0 := by
    rintro loop currentVersion ti sample ⟨owner, index, rbt, entered, _, found, _, _, inside⟩
    exact ok.counted owner loop currentVersion index _ _ rbt entered found inside
  constructor
  · intro protects currentVersion ti sample samples
    exact (visitHungThread_range_iff (active samples)).mp
      (protects .hungThreads currentVersion ti sample samples)
  · intro tells loop currentVersion ti sample samples
    cases loop with
    | threads =>
        refine ⟨⟨sample.lns.version, currentVersion⟩, ?_, rfl⟩
        simp [PassLoop.visit, visitThread, active samples]
    | hungThreads =>
        exact (visitHungThread_range_iff (active samples)).mpr
          (tells currentVersion ti sample samples)

/-! ## The recorded version of a thread -/

theorem hungVersion_of_visit (loop : PassLoop) (currentVersion : Nat) (info : LrcuThreadInfo)
    (sample : Sample) :
    (loop.visit currentVersion info sample).info.hungLns.version =
      if loop = .threads ∧ sample.lns.counter ≠ 0 then currentVersion
      else info.hungLns.version := by
  cases loop with
  | threads =>
      by_cases active : sample.lns.counter = 0
      · simp [PassLoop.visit, visitThread, active]
      · simp [PassLoop.visit, visitThread, active]
  | hungThreads => rfl

/-- The visit of another thread, or of a thread that is found outside, records no
version for the thread. -/
theorem hungVersion_of_visitNext {loop : PassLoop} {currentVersion : Nat}
    {pass visited : PassState ReaderId} {sample : Sample} (i : ReaderId)
    (visits : visitNext loop currentVersion pass sample = some visited) :
    (visited.lists.info i).hungLns.version =
      if loop = .threads ∧ pass.lists.threads[pass.index]? = some i ∧ sample.lns.counter ≠ 0
      then currentVersion else (pass.lists.info i).hungLns.version := by
  obtain ⟨ti, here, info⟩ := info_of_visit visits
  rw [info]
  rcases eq_or_ne i ti with rfl | other
  · rw [Function.update_self, hungVersion_of_visit]
    cases loop with
    | threads =>
        have here : pass.lists.threads[pass.index]? = some i := here
        simp [here]
    | hungThreads => simp
  · rw [Function.update_of_ne other, if_neg]
    rintro ⟨rfl, found, _⟩
    exact other (Option.some.inj (found.symm.trans here))

/-- The visit that moves a thread to `ns->hung_threads` declares it hung. -/
theorem stays_of_undeclared {owner : PassOwner} {currentVersion index version now : Nat}
    {counter : Int} {rbt : LrcuRangetree} {i : ReaderId}
    (found : state.passOf owner =
      some (.visiting .threads currentVersion index (some version) (some counter) rbt))
    (here : state.lists.threads[index]? = some i)
    (undeclared : declaresHung state (.pass owner (.visit now)) ≠ some i) :
    (visitThread currentVersion (state.lists.info i) ⟨⟨version, counter⟩, now⟩).moves = false := by
  apply Bool.eq_false_of_not_eq_true
  intro moves
  exact undeclared (by simp [declaresHung, found, here, moves])

theorem hungThreads_of_step {action : NamespaceAction} {i : ReaderId}
    (stepped : namespaceStep state action = some next)
    (undeclared : declaresHung state action ≠ some i) (hung : i ∈ next.lists.hungThreads) :
    i ∈ state.lists.hungThreads := by
  rcases lists_of_step stepped with
    ⟨_, same, _⟩ | ⟨owner, loop, currentVersion, index, version, counter, rbt, now, visited, rfl,
      found, visits, lists⟩
  · exact same ▸ hung
  · rw [lists] at hung
    obtain ⟨ti, here, _, ⟨moves, _, moved⟩ | ⟨_, _, stays⟩⟩ := visitNext_cases visits
    · rw [moved] at hung
      cases loop with
      | threads =>
          rcases List.mem_cons.mp hung with rfl | before
          · have stays := stays_of_undeclared found here undeclared
            simp [PassLoop.visit, stays] at moves
          · exact before
      | hungThreads => exact List.mem_of_mem_eraseIdx hung
    · rw [stays] at hung
      exact hung

/-- A thread in a read section stays on `ns->threads` until it is declared
hung. -/
theorem threads_of_step {action : NamespaceAction} {i : ReaderId}
    (stepped : namespaceStep state action = some next)
    (undeclared : declaresHung state action ≠ some i) (counted : (next.lns i).counter ≠ 0)
    (registered : i ∈ state.lists.threads) : i ∈ next.lists.threads := by
  by_cases reader : ∃ j own, action = .reader j own
  · obtain ⟨j, own, rfl⟩ := reader
    have move : ReaderMove state j own next := readerMove_of_step stepped
    cases move with
    | setNs free => exact List.mem_cons_of_mem j registered
    | delNs free left =>
        have other : i ≠ j := fun same => counted (same ▸ left)
        exact (List.mem_erase_of_ne other).mpr registered
    | lockCount | lockFirst | lockNested | lockStore | dereference | dereferenceNull
    | unlockLast | unlockNested => exact registered
  · rcases lists_of_step stepped with
      ⟨_, _, same⟩ | ⟨owner, loop, currentVersion, index, version, counter, rbt, now, visited, rfl,
        found, visits, lists⟩
    · rwa [same fun j own equal => reader ⟨j, own, equal⟩]
    · rw [lists]
      obtain ⟨ti, here, _, ⟨moves, _, moved⟩ | ⟨_, _, stays⟩⟩ := visitNext_cases visits
      · rw [moved]
        cases loop with
        | threads =>
            -- the thread that moves is another one
            apply List.mem_eraseIdx_iff_getElem?.mpr
            obtain ⟨place, at_place⟩ := List.mem_iff_getElem?.mp registered
            refine ⟨place, ?_, at_place⟩
            rintro rfl
            have stays := stays_of_undeclared found at_place undeclared
            obtain rfl := Option.some.inj (here.symm.trans at_place)
            simp [PassLoop.visit, stays] at moves
        | hungThreads => exact List.mem_cons_of_mem ti registered
      · rw [stays]
        exact registered

/-! ## Passes over a thread on both lists -/

/-- The pass has recorded its version for the thread, which is on `ns->threads`
as well, or it will do so before it comes to `ns->hung_threads`. -/
def PassRenews (lists : ThreadLists ReaderId) (i : ReaderId) : PassPc → Prop
  | .visiting .threads currentVersion index _ counter _ =>
      (lists.info i).hungLns.version = currentVersion ∨ i ∈ lists.threads.drop (index + 1) ∨
        lists.threads[index]? = some i ∧ ∀ count ∈ counter, count ≠ 0
  | .visiting .hungThreads currentVersion _ _ _ _ =>
      (lists.info i).hungLns.version = currentVersion
  | _ => True

namespace PassRenews

variable {i : ReaderId}

private theorem of_drop {lists : ThreadLists ReaderId} {currentVersion index : Nat}
    {rbt : LrcuRangetree}
    (reason : (lists.info i).hungLns.version = currentVersion ∨ i ∈ lists.threads.drop index) :
    PassRenews lists i (.visiting .threads currentVersion index none none rbt) := by
  rcases reason with recorded | ahead
  · exact Or.inl recorded
  · rcases mem_drop_iff.mp ahead with here | later
    · exact Or.inr (Or.inr ⟨here, by simp⟩)
    · exact Or.inr (Or.inl later)

theorem of_not_visiting {lists : ThreadLists ReaderId} {pass : PassPc} (idle : ¬ pass.Visiting) :
    PassRenews lists i pass := by
  cases pass with
  | visiting => exact absurd trivial idle
  | loadVersion | lockThreads | finished => trivial

private theorem step {owner : PassOwner} {pass pass' : PassPc} {action : PassAction}
    (renews : PassRenews state.lists i pass)
    (move : PassMove state owner pass action next pass')
    (registered : i ∈ state.lists.threads) (counted : (state.lns i).counter ≠ 0) :
    PassRenews next.lists i pass' := by
  cases move with
  | loadVersion | unlockThreads => trivial
  | lockThreads currentVersion rbt free => exact of_drop (Or.inr (by simpa using registered))
  | loadLnsVersion loop => cases loop <;> exact renews
  | loadLnsCounter loop currentVersion index version rbt ti here =>
      cases loop with
      | hungThreads => exact renews
      | threads =>
          refine renews.imp_right (Or.imp_right fun ⟨its, _⟩ => ⟨its, fun count same => ?_⟩)
          obtain rfl := Option.some.inj (its.symm.trans here)
          exact Option.some.inj same ▸ counted
  | visit loop currentVersion index version counter rbt now visited visits =>
      have recorded := hungVersion_of_visitNext i visits
      cases loop with
      | hungThreads => exact recorded.trans renews
      | threads =>
          apply of_drop
          rw [show visited.lists.threads.drop visited.index = _ from drop_of_visitNext visits]
          rcases renews with current | later | ⟨here, active⟩
          · left
            rw [recorded, ite_eq_left_iff]
            exact fun _ => current
          · exact Or.inr later
          · exact Or.inl (recorded.trans (if_pos ⟨rfl, here, active counter rfl⟩))
  | nextLoop currentVersion index rbt all =>
      rcases renews with current | later | ⟨here, _⟩
      · exact current
      · rw [List.drop_eq_nil_of_le (by omega)] at later
        exact absurd later List.not_mem_nil
      · rw [List.getElem?_eq_none all] at here
        simp at here

theorem of_step {action : NamespaceAction} {owner : PassOwner} {pass' : PassPc}
    (renews : ∀ owner pass, state.passOf owner = some pass → PassRenews state.lists i pass)
    (ok : NamespaceOk state) (stepped : namespaceStep state action = some next)
    (found : next.passOf owner = some pass') (registered : i ∈ state.lists.threads)
    (counted : (next.lns i).counter ≠ 0) : PassRenews next.lists i pass' := by
  rcases passOf_of_step stepped found with
    ⟨own, pass, middle, rfl, before, move, rfl⟩ | ⟨before, others⟩ | ⟨ranges, rfl⟩
  · rw [(reader_eq_of_step stepped (by simp)).1] at counted
    have renewed := (renews owner pass before).step move registered counted
    obtain ⟨_, _, set⟩ := setPass_shape middle owner pass'
    rwa [set]
  · by_cases visiting : pass'.Visiting
    · rw [(ok.visiting_frame stepped before visiting others).1]
      exact renews owner pass' before
    · exact of_not_visiting visiting
  · trivial

/-- The pass that records its version for the thread is the only one that visits
threads. -/
theorem of_recorded {owner owner' : PassOwner} {currentVersion index version now : Nat}
    {counter : Int} {rbt : LrcuRangetree} {pass' : PassPc} (ok : NamespaceOk state)
    (stepped : namespaceStep state (.pass owner (.visit now)) = some next)
    (visiting : state.passOf owner =
      some (.visiting .threads currentVersion index (some version) (some counter) rbt))
    (recorded : (next.lists.info i).hungLns.version = currentVersion)
    (found : next.passOf owner' = some pass') : PassRenews next.lists i pass' := by
  rcases passOf_of_step stepped found with
    ⟨own, pass, middle, same, before, move, rfl⟩ | ⟨before, others⟩ | ⟨ranges, rfl⟩
  · cases same
    obtain rfl := Option.some.inj (visiting.symm.trans before)
    cases move with
    | visit => exact Or.inl recorded
  · apply of_not_visiting
    intro inside
    have same := (ok.locked owner' pass' before inside).symm.trans
      (ok.locked owner _ visiting trivial)
    exact others (.visit now) (by rw [Option.some.inj same])
  · trivial

end PassRenews

/-! ## New sections are told -/

/-- The recorded version of the thread lies below the version, or the thread is
on `ns->threads` as well, where every pass records its own version first. -/
def Told (state : NamespaceState) (i : ReaderId) (version : Nat) : Prop :=
  (state.lists.info i).hungLns.version < version ∨
    i ∈ state.lists.threads ∧
      ∀ owner pass, state.passOf owner = some pass → PassRenews state.lists i pass

theorem Told.step {action : NamespaceAction} {i : ReaderId} {version : Nat}
    (told : Told state i version) (ok : NamespaceOk state)
    (stepped : namespaceStep state action = some next)
    (undeclared : declaresHung state action ≠ some i) (counted : (next.lns i).counter ≠ 0) :
    Told next i version := by
  rcases told with below | ⟨registered, renews⟩
  · rcases lists_of_step stepped with
      ⟨info, _⟩ | ⟨owner, loop, currentVersion, index, sampled, counter, rbt, now, visited, rfl,
        found, visits, lists⟩
    · exact Or.inl (by rwa [info])
    · have recorded := hungVersion_of_visitNext i visits
      rw [← lists] at recorded
      split_ifs at recorded with records
      · obtain ⟨rfl, here, _⟩ := records
        refine Or.inr ⟨?_, fun owner' pass' after => ?_⟩
        · exact threads_of_step stepped undeclared counted (List.mem_of_getElem? here)
        · exact .of_recorded ok stepped found recorded after
      · exact Or.inl (by rwa [recorded])
  · refine Or.inr ⟨threads_of_step stepped undeclared counted registered, ?_⟩
    exact fun owner pass' found => .of_step renews ok stepped found registered counted

theorem newSection_of_step {state : RecoveryState} {next : NamespaceState}
    {action : NamespaceAction} {i : ReaderId} {version : Nat} (ok : RecoveryOk state)
    (stepped : namespaceStep state.ns action = some next)
    (entered : NewSection (state.observe action next) i version) :
    declaresHung state.ns action ≠ some i ∧ (next.lns i).counter ≠ 0 ∧
      (NewSection state i version ∨
        action = .reader i .lockTest ∧ state.ns.reader i = .entered ∧
          (state.ns.lns i).counter = 1 ∧ state.stage i = .outside ∧
            version = state.ns.version) := by
  rcases entered with ⟨outside, storing⟩ | ⟨recovered, same⟩
  · have counted : (next.lns i).counter = 1 :=
      ((ok.ns.step stepped).readers i).storing version storing
    obtain ⟨undeclared, before, _⟩ := outside_of_stageAfter outside (by omega)
    refine ⟨undeclared, by omega, ?_⟩
    rcases storing_of_step stepped storing with stays | ⟨locks, at_test, first, loaded⟩
    · exact Or.inl (Or.inl ⟨before, stays⟩)
    · exact Or.inr ⟨locks, at_test, first, before, loaded⟩
  · obtain ⟨undeclared, counted, stays | ⟨before, completes⟩⟩ := recovered_of_stageAfter recovered
    · refine ⟨undeclared, counted, Or.inl (Or.inr ⟨stays, ?_⟩)⟩
      have word := (ok.ns.readers i).counter
      rcases within_of_step word (ok.inside i stays) stepped with ⟨_, kept⟩ | left
      · exact kept.symm.trans same
      · exact absurd left counted
    · refine ⟨undeclared, counted, Or.inl (Or.inl ⟨before, ?_⟩)⟩
      obtain rfl := lockStore_of_completesLock completes
      have move : ReaderMove state.ns i .lockStore next := readerMove_of_step stepped
      cases move with
      | lockStore version' storing =>
          rw [storing, ← same]
          simp [RecoveryState.observe, NamespaceState.setReader, NamespaceState.setLns]

/-- What a run keeps up in which the threads on `ns->hung_threads` lock with new
versions. -/
structure NewSectionsTold (state : RecoveryState) : Prop where
  ok : RecoveryOk state
  told : ∀ i version, NewSection state i version → i ∈ state.ns.lists.hungThreads →
    Told state.ns i version
  loaded : ∀ owner currentVersion index version counter rbt entered ti,
    state.ns.passOf owner =
      some (.visiting .hungThreads currentVersion index (some version) counter rbt) →
    state.versionSection owner = some entered →
    state.ns.lists.hungThreads[index]? = some ti →
      (state.ns.lists.info ti).hungLns.version < version ∨
        (state.ns.lists.info ti).hungLns.version = currentVersion

namespace NewSectionsTold

theorem init (workerTi : ReaderId) (ranges : Nat → LrcuRange) :
    NewSectionsTold (recoveryInit workerTi ranges) where
  ok := RecoveryOk.init workerTi ranges
  told _ _ _ hung := absurd hung List.not_mem_nil
  loaded _ _ _ _ _ _ _ _ _ entered := by simp [recoveryInit] at entered

variable {state : RecoveryState} {next : NamespaceState} {action : NamespaceAction}

private theorem told_of_step (holds : NewSectionsTold state)
    (locks : LocksNewVersion state action) (stepped : namespaceStep state.ns action = some next)
    {i : ReaderId} {version : Nat} (entered : NewSection (state.observe action next) i version)
    (hung : i ∈ next.lists.hungThreads) : Told next i version := by
  obtain ⟨undeclared, counted, before | ⟨rfl, at_test, first, outside, rfl⟩⟩ :=
    newSection_of_step holds.ok stepped entered
  · have told := holds.told i version before (hungThreads_of_step stepped undeclared hung)
    exact told.step holds.ok.ns stepped undeclared counted
  · have hungBefore := hungThreads_of_step stepped undeclared hung
    have told : Told state.ns i state.ns.version :=
      Or.inl (locks i rfl at_test first outside hungBefore)
    exact told.step holds.ok.ns stepped undeclared counted

/-- A load of the version of a recovered thread on `ns->hung_threads`. -/
private theorem told_of_load (holds : NewSectionsTold state) {owner : PassOwner}
    {currentVersion index entered : Nat} {counter : Option Int} {rbt : LrcuRangetree}
    {ti : ReaderId}
    (found : state.ns.passOf owner =
      some (.visiting .hungThreads currentVersion index none counter rbt))
    (inside : state.sectionOf owner = some entered)
    (here : state.ns.lists.hungThreads[index]? = some ti) :
    (state.ns.lists.info ti).hungLns.version < (state.ns.lns ti).version ∨
      (state.ns.lists.info ti).hungLns.version = currentVersion := by
  have recovered : NewSection state ti (state.ns.lns ti).version :=
    Or.inr ⟨recovered_of_sectionOf found here inside, rfl⟩
  rcases holds.told ti _ recovered (List.mem_of_getElem? here) with below | ⟨_, renews⟩
  · exact Or.inl below
  · exact Or.inr (renews owner _ found)

theorem step (holds : NewSectionsTold state) (locks : LocksNewVersion state action)
    (stepped : namespaceStep state.ns action = some next) :
    NewSectionsTold (state.observe action next) where
  ok := holds.ok.step stepped
  told i version := holds.told_of_step locks stepped
  loaded owner currentVersion index version counter rbt entered ti found inside here := by
    change state.afterLoad .loadLnsVersion state.versionSection action owner = _ at inside
    change next.lists.hungThreads[index]? = some ti at here
    change (next.lists.info ti).hungLns.version < version ∨
      (next.lists.info ti).hungLns.version = currentVersion
    rcases passOf_of_step stepped found with
      ⟨own, pass, middle, rfl, before, move, rfl⟩ | ⟨before, others⟩ | ⟨ranges, started⟩
    · obtain ⟨_, _, set⟩ := setPass_shape middle owner
        (.visiting .hungThreads currentVersion index (some version) counter rbt)
      rw [set] at here ⊢
      cases move with
      | loadLnsVersion loop currentVersion index counter rbt ti' found' =>
          rw [afterLoad_self] at inside
          obtain rfl := Option.some.inj (here.symm.trans found')
          exact holds.told_of_load before inside here
      | loadLnsCounter =>
          rw [afterLoad_of_ne (by simp)] at inside
          exact holds.loaded _ _ _ _ _ _ _ _ before inside here
    · rw [(holds.ok.ns.visiting_frame stepped before trivial others).1] at here ⊢
      rw [afterLoad_of_ne (others _)] at inside
      exact holds.loaded _ _ _ _ _ _ _ _ before inside here
    · cases started

theorem tellsRecovered (holds : NewSectionsTold state) (action : NamespaceAction) :
    TellsRecovered state action := by
  rintro currentVersion ti sample ⟨owner, index, rbt, entered, _, found, here, inside, _⟩
  exact holds.loaded owner currentVersion index _ _ rbt entered ti found inside here

end NewSectionsTold

theorem recoveryStep_eq_some_iff {state next : RecoveryState} {action : NamespaceAction} :
    recoveryStep state action = some next ↔
      ∃ ns, namespaceStep state.ns action = some ns ∧ state.observe action ns = next :=
  Option.map_eq_some_iff

/-- A recovered thread is protected in exactly those runs whose visits of
`ns->hung_threads` tell its sections, and so in all runs in which it never locks
there with the recorded version. -/
theorem recovered_protected_iff (workerTi : ReaderId) (ranges : Nat → LrcuRange)
    (actions : List NamespaceAction) :
    (Meets recoveryStep ProtectsRecovered (recoveryInit workerTi ranges) actions ↔
        Meets recoveryStep TellsRecovered (recoveryInit workerTi ranges) actions) ∧
      (Meets recoveryStep LocksNewVersion (recoveryInit workerTi ranges) actions →
        Meets recoveryStep ProtectsRecovered (recoveryInit workerTi ranges) actions) := by
  have iff : Meets recoveryStep ProtectsRecovered (recoveryInit workerTi ranges) actions ↔
      Meets recoveryStep TellsRecovered (recoveryInit workerTi ranges) actions := by
    apply meets_iff_of_invariant RecoveryOk _ _ (RecoveryOk.init workerTi ranges)
    · exact fun state action _ ok => protectsRecovered_iff ok
    · intro state action _ next ok stepped
      obtain ⟨ns, moved, rfl⟩ := recoveryStep_eq_some_iff.mp stepped
      exact ok.step moved
  refine ⟨iff, fun locks => iff.mpr ?_⟩
  apply Meets.imp_of_invariant NewSectionsTold _ _ (NewSectionsTold.init workerTi ranges) locks
  · exact fun state action holds _ => holds.tellsRecovered action
  · intro state action next locked holds stepped
    obtain ⟨ns, moved, rfl⟩ := recoveryStep_eq_some_iff.mp stepped
    exact holds.step locked moved

def visitActions (now : Nat) : List NamespaceAction :=
  [.pass (.caller 0) .loadLnsVersion, .pass (.caller 0) .loadLnsCounter,
    .pass (.caller 0) (.visit now)]

/-- Two passes by a caller of `lrcu_synchronize_ns`, the second of which declares
thread `1` hung, and the thread leaves its section. -/
def hangActions : List NamespaceAction :=
  [.reader 1 .lrcuThreadSetNs] ++ lockActions ++
    [.enter 0 false fun _ => ⟨0, 0⟩, .caller 0,
      .pass (.caller 0) .loadVersion, .pass (.caller 0) .lockThreads] ++
    visitActions 1 ++ visitActions 1 ++
    [.pass (.caller 0) .nextLoop, .pass (.caller 0) .unlockThreads, .caller 0,
      .pass (.caller 0) .loadVersion, .pass (.caller 0) .lockThreads] ++
    visitActions (1 + lrcuHangTimeout) ++ visitActions (1 + lrcuHangTimeout) ++
    [.pass (.caller 0) .nextLoop] ++ visitActions (1 + lrcuHangTimeout) ++
    [.pass (.caller 0) .unlockThreads, .reader 1 .lrcuReadUnlockNs]

/-- A pass up to its visit of thread `1` on `ns->hung_threads`. -/
def nextPassActions : List NamespaceAction :=
  [.caller 0, .pass (.caller 0) .loadVersion, .pass (.caller 0) .lockThreads] ++
    visitActions (1 + lrcuHangTimeout) ++
    [.pass (.caller 0) .nextLoop, .pass (.caller 0) .loadLnsVersion,
      .pass (.caller 0) .loadLnsCounter]

/-- The version has moved on when thread `1` enters its new section. -/
def renewedRun : List NamespaceAction :=
  hangActions ++ [.writer .lrcuWriteBarrierNs] ++ lockActions ++ nextPassActions ++
    [.pass (.caller 0) (.visit (1 + lrcuHangTimeout))]

theorem recovered_protected_iff_renewedRun :
    Meets recoveryStep ProtectsRecovered (recoveryInit 0 fun _ => ⟨0, 0⟩) renewedRun := by
  apply (recovered_protected_iff 0 (fun _ => ⟨0, 0⟩) renewedRun).2
  iterate 45
    refine Meets.cons ?_ rfl ?_
    · rintro i ⟨⟩ <;> decide
  trivial

/-- The version moves on only behind the lock of the new section, which has the
recorded version. -/
def reenteredRun : List NamespaceAction :=
  hangActions ++ lockActions ++ [.writer .lrcuWriteBarrierNs] ++ nextPassActions

theorem not_recovered_protected :
    ¬ ∀ (workerTi : ReaderId) (ranges : Nat → LrcuRange) (actions : List NamespaceAction),
      Meets recoveryStep ProtectsRecovered (recoveryInit workerTi ranges) actions := by
  intro protects
  have meets := protects 0 (fun _ => ⟨0, 0⟩)
    (reenteredRun ++ [.pass (.caller 0) (.visit (1 + lrcuHangTimeout))])
  obtain ⟨state, rbt, ran, found, hung, version, counter, recorded⟩ : ∃ state rbt,
      run recoveryStep (recoveryInit 0 fun _ => ⟨0, 0⟩) reenteredRun = some state ∧
        state.ns.passOf (.caller 0) =
          some (.visiting .hungThreads 2 0 (some 1) (some 1) rbt) ∧
        state.ns.lists.hungThreads = [1] ∧ state.versionSection (.caller 0) = some 2 ∧
          state.counterSection (.caller 0) = some 2 ∧
            (state.ns.lists.info 1).hungLns.version = 1 :=
    ⟨_, _, rfl, rfl, rfl, rfl, rfl, rfl⟩
  obtain ⟨range, added, last⟩ := (meets.append_right ran).1 .hungThreads 2 1
    ⟨⟨1, 1⟩, 1 + lrcuHangTimeout⟩
    ⟨.caller 0, 0, rbt, 2, rfl, found, by simp [ThreadLists.walked, hung], version, counter⟩
  obtain below | same := (visitHungThread_range_iff (by decide)).mp ⟨range, added, last⟩
  · exact absurd (recorded ▸ below) (by decide)
  · exact absurd (recorded.symm.trans same) (by decide)

end LightRcu
