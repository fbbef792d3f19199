import LightRcu.NamespaceChecks
import LightRcu.PassCoverage
import LightRcu.PassProgress

/-!
# Nobody is stuck

Whoever visits threads holds `threads_lock`, and whoever holds it visits
threads.  As long as the version has not reached the value that marks an empty
range, no assertion fails in the pass of the holder or behind it, so the holder
can go on, and so can the worker and every caller that do not wait for it.
Their debug checks pass as long as the lists are short.
-/

namespace LightRcu

open ClosedInterval Execution

variable {workerTi : ReaderId} {ranges : Nat → LrcuRange} {state next : NamespaceState}
  {version : Nat}

/-! ## Turns -/

/-- The step that a pass is at, unless it is over.  A visit may also load the
two fields in the other order. -/
def PassPc.turn (lists : ThreadLists ReaderId) (now : Nat) : PassPc → Option PassAction
  | .loadVersion _ => some .loadVersion
  | .lockThreads .. => some .lockThreads
  | .visiting loop _ index version counter _ =>
      if index < (lists.walked loop).length then
        if version.isNone then some .loadLnsVersion
        else if counter.isNone then some .loadLnsCounter
        else some (.visit now)
      else
        match loop with
        | .threads => some .nextLoop
        | .hungThreads => some .unlockThreads
  | .finished _ => none

/-- The step that the worker or a caller is at, when the clock shows a time. -/
def NamespaceState.turn (state : NamespaceState) (now : Nat) (owner : PassOwner) :
    NamespaceAction :=
  match (state.passOf owner).bind (·.turn state.lists now), owner with
  | some action, owner => .pass owner action
  | none, .worker => .worker
  | none, .caller c => .caller c

/-- The worker or caller can take the step that it is at, whatever the clock
shows. -/
def NamespaceState.GoesOn (state : NamespaceState) (owner : PassOwner) : Prop :=
  ∀ now, ∃ next, namespaceStep state (state.turn now owner) = some next

/-- The worker, which runs for ever, or a caller that has not returned. -/
def NamespaceState.Busy (state : NamespaceState) : PassOwner → Prop
  | .worker => True
  | .caller c => state.caller c ≠ .idle

/-! ## The versions of a pass -/

/-- No range of the pass starts above the version, and it has sampled no version
above it. -/
def PassPc.Below (version : Nat) (pass : PassPc) : Prop :=
  StartsIn (· ≤ version) pass.rbt ∧
    ∀ loop currentVersion index sampled counter rbt,
      pass = .visiting loop currentVersion index (some sampled) counter rbt → sampled ≤ version

theorem PassPc.Below.mono {pass : PassPc} {version' : Nat} (below : pass.Below version)
    (grown : version ≤ version') : pass.Below version' := by
  refine ⟨fun index inside => (below.1 index inside).trans grown, ?_⟩
  intro loop currentVersion index sampled counter rbt same
  exact (below.2 loop currentVersion index sampled counter rbt same).trans grown

theorem PassPc.below_init (ranges : Nat → LrcuRange) :
    (PassPc.loadVersion (rangeBintreeInit ranges lrcuThreadsMax)).Below version :=
  ⟨fun _ inside => absurd inside (Nat.not_lt_zero _), by simp⟩

theorem PassPc.Below.step {owner : PassOwner} {pass pass' : PassPc} {action : PassAction}
    (below : pass.Below version) (readers : ∀ i, (state.lns i).version ≤ version)
    (move : PassMove state owner pass action next pass') : pass'.Below version := by
  cases move with
  | loadVersion | lockThreads | nextLoop => exact ⟨below.1, by simp⟩
  | loadLnsVersion loop currentVersion index counter rbt ti found =>
      refine ⟨below.1, ?_⟩
      simp only [PassPc.visiting.injEq, Option.some.injEq]
      rintro _ _ _ _ _ _ ⟨_, _, _, rfl, _⟩
      exact readers ti
  | loadLnsCounter loop currentVersion index sampled rbt ti found =>
      refine ⟨below.1, ?_⟩
      simp only [PassPc.visiting.injEq]
      rintro _ _ _ _ _ _ ⟨rfl, rfl, rfl, rfl, _⟩
      exact below.2 _ _ _ _ _ _ rfl
  | visit loop currentVersion index sampled counter rbt now visited visits =>
      have sampledBelow := below.2 _ _ _ _ _ _ rfl
      exact ⟨(visitNext_starts below.1 (fun _ => sampledBelow) visits).1, by simp⟩
  | unlockThreads currentVersion index rbt merged room all optimized =>
      exact ⟨(startsIn_of_optimize below.1 optimized).1, by simp⟩

theorem PassPc.Below.valid {pass : PassPc} (below : pass.Below version)
    (small : version < rangeBintreeEmptyValue) : pass.rbt.Valid := by
  intro range member
  obtain ⟨index, inside, rfl⟩ := mem_entries.mp member
  exact ((below.1 index inside).trans_lt small).ne

/-! ## The invariant -/

/-- A pass that has loaded a field of a thread is at that thread. -/
def PassPc.Loaded (lists : ThreadLists ReaderId) : PassPc → Prop
  | .visiting loop _ index version counter _ =>
      version.isSome ∨ counter.isSome → index < (lists.walked loop).length
  | _ => True

/-- What holds of the worker and the callers between two steps. -/
structure PartiesOk (state : NamespaceState) : Prop where
  ok : NamespaceOk state
  versions : VersionsOk state
  below : ∀ owner pass, state.passOf owner = some pass → pass.Below state.version
  loaded : ∀ owner pass, state.passOf owner = some pass → pass.Loaded state.lists
  holder : ∀ owner, state.threadsLock = some owner →
    ∃ pass, state.passOf owner = some pass ∧ pass.Visiting
  sorted : state.worker.ArrayIs PassOk (fun rbt => rbt.sorted = true) (fun _ => True) state.ranges

namespace PartiesOk

theorem init : PartiesOk (namespaceInit workerTi ranges) where
  ok := NamespaceOk.init workerTi ranges
  versions := VersionsOk.init workerTi ranges
  below owner pass found := by
    cases owner <;> simp [namespaceInit, NamespaceState.passOf] at found
  loaded owner pass found := by
    cases owner <;> simp [namespaceInit, NamespaceState.passOf] at found
  holder owner taken := by simp [namespaceInit] at taken
  sorted := trivial

end PartiesOk

/-- While others move, the pass that visits threads stays where it is. -/
theorem visiting_stays {action : NamespaceAction} {owner : PassOwner} {pass : PassPc}
    (stepped : namespaceStep state action = some next) (found : state.passOf owner = some pass)
    (visiting : pass.Visiting) (others : ∀ own, action ≠ .pass owner own) :
    next.passOf owner = some pass := by
  cases owner with
  | worker =>
      rw [passOf_worker] at found ⊢
      cases own : action.byWorker with
      | false => exact (worker_of_foreign_step stepped own).1.trans found
      | true =>
          cases action with
          | worker =>
              cases pass <;> simp [PassPc.Visiting] at visiting
              simp [namespaceStep, workerStep, found] at stepped
          | pass owner action =>
              cases owner with
              | worker => exact absurd rfl (others action)
              | caller c => simp [NamespaceAction.byWorker] at own
          | reader | writer | call | enter | caller => simp [NamespaceAction.byWorker] at own
  | caller c =>
      obtain ⟨barrier, currentVersion, waiting⟩ := passOf_caller.mp found
      rcases waiting_of_step stepped waiting with
        ⟨own, _, _, rfl, _⟩ | ⟨_, move⟩ | ⟨_, same⟩
      · exact absurd rfl (others own)
      · generalize after : next.caller c = pc at move
        cases move <;> exact visiting.elim
      · exact passOf_caller.mpr ⟨barrier, currentVersion, same⟩

/-- Only a pass takes `threads_lock` for longer than a step. -/
theorem threadsLock_of_step {action : NamespaceAction}
    (stepped : namespaceStep state action = some next)
    (others : ∀ owner own, action ≠ .pass owner own) : next.threadsLock = state.threadsLock := by
  cases action with
  | reader i action =>
      obtain ⟨_, _, _, _, rfl, _⟩ := (readerMove_of_step stepped).shape
      rfl
  | writer action =>
      obtain ⟨_, _, _, _, rfl⟩ := (writerMove_of_step stepped).shape
      rfl
  | call obj action =>
      obtain ⟨_, _, _, rfl⟩ := (callMove_of_step stepped).shape
      rfl
  | pass owner action => exact absurd rfl (others owner action)
  | worker => exact (workerMove_of_step stepped).frame.threadsLock
  | enter c barrier ranges =>
      obtain ⟨_, rfl⟩ := enter_shape stepped
      rfl
  | caller c =>
      obtain ⟨_, _, rfl⟩ := callerMove_of_step stepped
      rfl

namespace PartiesOk

private theorem holder_of_step {action : NamespaceAction} (holds : PartiesOk state)
    (stepped : namespaceStep state action = some next) {owner : PassOwner}
    (taken : next.threadsLock = some owner) :
    ∃ pass, next.passOf owner = some pass ∧ pass.Visiting := by
  by_cases moves : ∃ own action', action = .pass own action'
  · obtain ⟨own, action, rfl⟩ := moves
    obtain ⟨pass, middle, pass', found, move, rfl⟩ := passAction_cases stepped
    obtain ⟨lists, lock, shape⟩ := move.shape
    obtain ⟨_, _, set⟩ := setPass_shape middle own pass'
    rw [set] at taken
    have worker : middle.worker = state.worker := by rw [shape]
    have caller : middle.caller = state.caller := by rw [shape]
    have moved := passOf_setPass worker caller found pass'
    have kept : middle.threadsLock = state.threadsLock → (pass.Visiting → pass'.Visiting) →
        ∃ pass, (middle.setPass own pass').passOf owner = some pass ∧ pass.Visiting := by
      intro same stays
      obtain ⟨before, found', visiting⟩ := holds.holder owner (same ▸ taken)
      by_cases equal : owner = own
      · subst equal
        obtain rfl := Option.some.inj (found.symm.trans found')
        exact ⟨pass', moved.1, stays visiting⟩
      · exact ⟨before, (moved.2 owner equal).trans found', visiting⟩
    cases move with
    | lockThreads currentVersion rbt free =>
        obtain rfl := Option.some.inj taken
        exact ⟨_, moved.1, trivial⟩
    | unlockThreads => simp at taken
    | loadVersion => exact kept rfl id
    | loadLnsVersion | loadLnsCounter | visit | nextLoop => exact kept rfl fun _ => trivial
  · have others : ∀ own action', action ≠ .pass own action' := by simpa using moves
    obtain ⟨pass, found, visiting⟩ :=
      holds.holder owner ((threadsLock_of_step stepped others).symm.trans taken)
    exact ⟨pass, visiting_stays stepped found visiting (others owner), visiting⟩

private theorem loaded_of_move {owner : PassOwner} {pass pass' : PassPc} {action : PassAction}
    (loaded : pass.Loaded state.lists) (move : PassMove state owner pass action next pass') :
    pass'.Loaded next.lists := by
  cases move with
  | loadVersion | unlockThreads => trivial
  | lockThreads | visit | nextLoop => simp [PassPc.Loaded]
  | loadLnsVersion loop currentVersion index counter rbt ti found =>
      exact fun _ => (List.getElem?_eq_some_iff.mp found).1
  | loadLnsCounter loop currentVersion index sampled rbt ti found =>
      exact fun _ => (List.getElem?_eq_some_iff.mp found).1

theorem step {action : NamespaceAction} (holds : PartiesOk state)
    (fits : VersionFits state action) (stepped : namespaceStep state action = some next) :
    PartiesOk next where
  ok := holds.ok.step stepped
  versions := holds.versions.step fits stepped
  below owner pass' found := by
    rcases passOf_of_step stepped found with
      ⟨own, pass, middle, _, before, move, _⟩ | ⟨before, _⟩ | ⟨ranges, rfl⟩
    · exact ((holds.below owner pass before).step (fun i => (holds.versions i).versionLe)
        move).mono (version_le_of_step fits stepped)
    · exact (holds.below owner pass' before).mono (version_le_of_step fits stepped)
    · exact PassPc.below_init ranges
  loaded owner pass' found := by
    rcases passOf_of_step stepped found with
      ⟨own, pass, middle, _, before, move, rfl⟩ | ⟨before, others⟩ | ⟨ranges, rfl⟩
    · have kept := loaded_of_move (holds.loaded owner pass before) move
      obtain ⟨_, _, set⟩ := setPass_shape middle owner pass'
      rwa [set]
    · cases pass' with
      | visiting =>
          rw [(holds.ok.visiting_frame stepped before trivial others).1]
          exact holds.loaded owner _ before
      | loadVersion | lockThreads | finished => trivial
    · trivial
  holder owner taken := holds.holder_of_step stepped taken
  sorted := by
    apply arrayIs_of_step _ _ _ _ holds.sorted stepped
    · exact fun ranges _ => passOk_init ranges
    · exact fun own pass middle pass' _ ok _ move => ok.step move
    · exact fun rbt ok => ok.1
    · exact fun _ _ => trivial

/-! ## Who can go on -/

theorem passStep_turn (holds : PartiesOk state) (small : state.version < rangeBintreeEmptyValue)
    {owner : PassOwner} {pass : PassPc} (found : state.passOf owner = some pass)
    (free : (∃ currentVersion rbt, pass = .lockThreads currentVersion rbt) →
      state.threadsLock = none) (now : Nat) {action : PassAction}
    (turn : pass.turn state.lists now = some action) :
    ∃ result, passStep state owner pass action = some result := by
  have ok := holds.ok.passes owner pass found
  have below := holds.below owner pass found
  have loaded := holds.loaded owner pass found
  cases pass with
  | loadVersion rbt =>
      obtain rfl := Option.some.inj turn
      exact ⟨_, rfl⟩
  | lockThreads currentVersion rbt =>
      obtain rfl := Option.some.inj turn
      exact ⟨_, if_pos (free ⟨currentVersion, rbt, rfl⟩)⟩
  | finished rbt => simp [PassPc.turn] at turn
  | visiting loop currentVersion index sampled counter rbt =>
      simp only [PassPc.turn] at turn
      by_cases inside : index < (state.lists.walked loop).length
      · rw [if_pos inside] at turn
        have there := List.getElem?_eq_getElem inside
        cases sampled with
        | none =>
            obtain rfl : .loadLnsVersion = action := by simpa using turn
            exact ⟨_, by simp only [passStep, there, Option.map_some]; rfl⟩
        | some sampled =>
            cases counter with
            | none =>
                obtain rfl : .loadLnsCounter = action := by simpa using turn
                exact ⟨_, by simp only [passStep, there, Option.map_some]; rfl⟩
            | some counter =>
                obtain rfl : .visit now = action := by simpa using turn
                have asserts : VisitAsserts (⟨state.lists, index, rbt⟩ : PassState ReaderId)
                    ⟨⟨sampled, counter⟩, now⟩ :=
                  fun _ => Or.inr (below.valid small).unreserved
                obtain ⟨visited, visits⟩ :=
                  (visitNext_completes_iff loop currentVersion ok.1 inside).mpr asserts
                exact ⟨_, by simp only [passStep, visits, Option.map_some]; rfl⟩
      · rw [if_neg inside] at turn
        obtain rfl : sampled = none := by
          by_contra loadedVersion
          exact inside (loaded (Or.inl (Option.isSome_iff_ne_none.mpr loadedVersion)))
        obtain rfl : counter = none := by
          by_contra loadedCounter
          exact inside (loaded (Or.inr (Option.isSome_iff_ne_none.mpr loadedCounter)))
        cases loop with
        | threads =>
            obtain rfl := Option.some.inj turn
            exact ⟨_, if_neg inside⟩
        | hungThreads =>
            obtain rfl := Option.some.inj turn
            obtain ⟨merged, room, optimized⟩ := optimize_merge_completes (below.valid small)
            rw [PassPc.rbt] at optimized
            have beyond : ¬ index < state.lists.hungThreads.length := inside
            refine Option.isSome_iff_exists.mp ?_
            simp [passStep, beyond, optimized]

theorem goesOn_of_pass (holds : PartiesOk state)
    (small : state.version < rangeBintreeEmptyValue) {owner : PassOwner} {pass : PassPc}
    (found : state.passOf owner = some pass)
    (free : (∃ currentVersion rbt, pass = .lockThreads currentVersion rbt) →
      state.threadsLock = none) : state.GoesOn owner := by
  intro now
  cases turn : pass.turn state.lists now with
  | some action =>
      obtain ⟨⟨middle, pass'⟩, passed⟩ := holds.passStep_turn small found free now turn
      refine ⟨middle.setPass owner pass', ?_⟩
      simp [NamespaceState.turn, namespaceStep, found, turn, passed]
  | none =>
      obtain ⟨rbt, rfl⟩ : ∃ rbt, pass = .finished rbt := by
        cases pass with
        | finished rbt => exact ⟨rbt, rfl⟩
        | loadVersion | lockThreads => simp [PassPc.turn] at turn
        | visiting loop =>
            simp only [PassPc.turn] at turn
            split_ifs at turn
            cases loop <;> simp at turn
      cases owner with
      | worker =>
          have pc := passOf_worker.mp found
          exact ⟨_, by simp only [NamespaceState.turn, found, Option.bind_some, turn,
            namespaceStep, workerStep, pc]; rfl⟩
      | caller c =>
          obtain ⟨barrier, currentVersion, waiting⟩ := passOf_caller.mp found
          refine Option.isSome_iff_exists.mp ?_
          simp only [NamespaceState.turn, found, Option.bind_some, turn, namespaceStep, callerStep,
            waiting]
          split_ifs <;> rfl

end PartiesOk

/-- What is left of the pass of an owner. -/
def ownerRank (owner : PassOwner) (state : NamespaceState) : Nat ×ₗ Nat :=
  match state.passOf owner with
  | some pass => toLex (pass.rank state.lists)
  | none => toLex (0, 0)

theorem ownerRank_of_pass {owner : PassOwner} {pass : PassPc}
    (found : state.passOf owner = some pass) :
    ownerRank owner state = toLex (pass.rank state.lists) := by
  simp only [ownerRank, found]

/-- Whoever visits threads is closer to its end whenever it moves. -/
theorem ownerRank_of_step {action : NamespaceAction} {owner : PassOwner} {pass : PassPc}
    (ok : NamespaceOk state) (stepped : namespaceStep state action = some next)
    (found : state.passOf owner = some pass) (visiting : pass.Visiting) :
    ownerRank owner next ≤ ownerRank owner state ∧
      ((∃ own, action = .pass owner own) → ownerRank owner next < ownerRank owner state) := by
  by_cases moves : ∃ own, action = .pass owner own
  · obtain ⟨own, rfl⟩ := moves
    obtain ⟨before, middle, pass', found', move, rfl⟩ := passAction_cases stepped
    obtain rfl := Option.some.inj (found.symm.trans found')
    obtain ⟨_, _, shape⟩ := move.shape
    have worker : middle.worker = state.worker := by rw [shape]
    have caller : middle.caller = state.caller := by rw [shape]
    have moved := (passOf_setPass worker caller found pass').1
    obtain ⟨_, _, set⟩ := setPass_shape middle owner pass'
    have lists : (middle.setPass owner pass').lists = middle.lists := by rw [set]
    have lower : ownerRank owner (middle.setPass owner pass') < ownerRank owner state := by
      rw [ownerRank_of_pass found, ownerRank_of_pass moved, lists]
      exact move.rank_lt
    exact ⟨lower.le, fun _ => lower⟩
  · have others : ∀ own, action ≠ .pass owner own := not_exists.mp moves
    have stays := visiting_stays stepped found visiting others
    have same : ownerRank owner next = ownerRank owner state := by
      rw [ownerRank_of_pass found, ownerRank_of_pass stays,
        rank_of_foreign_step ok stepped found others]
    exact ⟨same.le, fun own => absurd own moves⟩

/-- A fair scheduler sees to it that `threads_lock` is released, whatever the
readers do, unless the version runs out before. -/
theorem threadsLock_released {infinite : InfiniteRun namespaceStep}
    {front : List NamespaceAction}
    (reached : run namespaceStep (namespaceInit workerTi ranges) front =
      some (infinite.states 0))
    (fits : Meets namespaceStep VersionFits (namespaceInit workerTi ranges) front)
    {holder : PassOwner}
    (fair : infinite.WeaklyFair (·.GoesOn holder) fun action => ∃ own, action = .pass holder own)
    (small : ∀ now, (∀ earlier ≤ now, (infinite.states earlier).threadsLock = some holder) →
      (infinite.states now).version < rangeBintreeEmptyValue) :
    ∃ later, (infinite.states later).threadsLock ≠ some holder := by
  by_contra never
  have taken : ∀ now, (infinite.states now).threadsLock = some holder := by simpa using never
  have begins : PartiesOk (infinite.states 0) :=
    run_preserves_of_meets PartiesOk (fun _ _ _ fits holds stepped => holds.step fits stepped)
      fits PartiesOk.init reached
  have room : ∀ now, (infinite.states now).version < rangeBintreeEmptyValue :=
    fun now => small now fun earlier _ => taken earlier
  have meets : infinite.MeetsFrom 0 VersionFits := fun now _ _ => room now
  have holds : ∀ now, PartiesOk (infinite.states now) := fun now =>
    InfiniteRun.invariant_from PartiesOk (fun _ _ _ fits holds stepped => holds.step fits stepped)
      meets begins (Nat.zero_le now)
  have goesOn : ∀ now, (infinite.states now).GoesOn holder := by
    intro now
    obtain ⟨pass, found, visiting⟩ := (holds now).holder holder (taken now)
    apply (holds now).goesOn_of_pass (room now) found
    rintro ⟨_, _, rfl⟩
    exact visiting.elim
  have recurs : infinite.RecursUntil 0 (fun state => state.threadsLock ≠ some holder)
      (fun action => ∃ own, action = .pass holder own) :=
    fun now _ _ => fair now fun later _ => goesOn later
  obtain ⟨later, _, released⟩ : ∃ later, 0 ≤ later ∧
      (infinite.states later).threadsLock ≠ some holder := by
    apply InfiniteRun.reaches (fun state => state.threadsLock ≠ some holder)
      (fun state => PartiesOk state ∧ state.threadsLock = some holder) (ownerRank holder)
      _ recurs meets ⟨begins, taken 0⟩
    rintro state action next fits ⟨ok, held⟩ stepped
    by_cases kept : next.threadsLock = some holder
    · obtain ⟨pass, found, visiting⟩ := ok.holder holder held
      exact Or.inr ⟨⟨ok.step fits stepped, kept⟩, ownerRank_of_step ok.ok stepped found visiting⟩
    · exact Or.inl kept
  exact released (taken later)

/-- The rest of the pass over the thread of the worker, and the return of the
caller. -/
def releaseActions : List NamespaceAction :=
  (passActions (.caller 0) 1).drop 2 ++ [.caller 0]

theorem threadsLock_released_of_pass :
    ∃ infinite : InfiniteRun namespaceStep, ∃ front,
      run namespaceStep (namespaceInit 0 fun _ => ⟨0, 0⟩) front = some (infinite.states 0) ∧
        (infinite.states 0).threadsLock = some (.caller 0) ∧
          ∃ later, (infinite.states later).threadsLock ≠ some (.caller 0) := by
  obtain ⟨taken, final, reached, ran, lock, version, free, idle⟩ :
      ∃ taken final, run namespaceStep (namespaceInit 0 fun _ => ⟨0, 0⟩)
          ([.enter 0 false fun _ => ⟨0, 0⟩, .caller 0] ++ (passActions (.caller 0) 1).take 2) =
            some taken ∧
        run namespaceStep taken releaseActions = some final ∧
          taken.threadsLock = some (.caller 0) ∧ taken.version = 1 ∧
            final.threadsLock = none ∧ final.caller 0 = .idle :=
    ⟨_, _, rfl, rfl, rfl, rfl, rfl, rfl⟩
  obtain ⟨infinite, begins, _, follows⟩ := (bumps final).exists_append ran
  subst begins
  refine ⟨infinite, _, reached, lock, ?_⟩
  apply threadsLock_released reached
  · exact (quiet_of_early (.init 0 _) (by decide) (by decide)).imp fun _ _ quiet => quiet.version
  · -- the caller has returned, and nothing is left for it to do
    intro start enabled
    obtain ⟨next, stepped⟩ := enabled (releaseActions.length + start) (Nat.le_add_left _ _) 0
    rw [(follows start).1] at stepped
    simp [bumps, NamespaceState.turn, NamespaceState.passOf, idle, namespaceStep, callerStep]
      at stepped
  · intro now held
    have early : now ≤ releaseActions.length := by
      by_contra late
      have released := held releaseActions.length (Nat.le_of_not_le late)
      rw [← Nat.add_zero releaseActions.length, (follows 0).1] at released
      simp [bumps, free] at released
    have counted := version_le_add infinite now
    rw [version] at counted
    exact counted.trans_lt ((Nat.add_le_add_left early 1).trans_lt (by decide))

end LightRcu
