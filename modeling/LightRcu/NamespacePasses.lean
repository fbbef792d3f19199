import LightRcu.GetSynchronizedReasons
import LightRcu.NamespaceInvariants

/-!
# Passes among the other threads

Any number of passes may be under way, but only the one that holds
`threads_lock` visits threads.  While it does, nobody else touches the two
lists.
-/

namespace LightRcu

open ClosedInterval Execution

variable {state next : NamespaceState}

/-! ## The pass of each owner -/

theorem passOf_worker {pass : PassPc} :
    state.passOf .worker = some pass ↔ state.worker = .passing pass := by
  cases pc : state.worker <;> simp [NamespaceState.passOf, pc]

theorem passOf_caller {c : CallerId} {pass : PassPc} :
    state.passOf (.caller c) = some pass ↔
      ∃ barrier currentVersion, state.caller c = .waiting barrier currentVersion pass := by
  cases pc : state.caller c <;> simp [NamespaceState.passOf, pc]

theorem passOf_setPass {middle : NamespaceState} {owner : PassOwner} {pass : PassPc}
    (worker : middle.worker = state.worker) (caller : middle.caller = state.caller)
    (found : state.passOf owner = some pass) (pass' : PassPc) :
    (middle.setPass owner pass').passOf owner = some pass' ∧
      ∀ other, other ≠ owner →
        (middle.setPass owner pass').passOf other = state.passOf other := by
  cases owner with
  | worker =>
      refine ⟨rfl, fun other distinct => ?_⟩
      cases other with
      | worker => exact absurd rfl distinct
      | caller c => simp only [NamespaceState.setPass, NamespaceState.passOf, caller]
  | caller c =>
      cases pc : state.caller c with
      | waiting barrier currentVersion before =>
          have set : middle.setPass (.caller c) pass' =
              middle.setCaller c (.waiting barrier currentVersion pass') := by
            simp only [NamespaceState.setPass, caller, pc]
          rw [set]
          refine ⟨by simp [NamespaceState.passOf, NamespaceState.setCaller],
            fun other distinct => ?_⟩
          cases other with
          | worker => simp only [NamespaceState.passOf, NamespaceState.setCaller, worker]
          | caller c' =>
              have apart : c' ≠ c := fun same => distinct (by rw [same])
              simp only [NamespaceState.passOf, NamespaceState.setCaller, caller,
                Function.update_of_ne apart]
      | idle => simp [NamespaceState.passOf, pc] at found
      | loadVersion => simp [NamespaceState.passOf, pc] at found
      | loadBarrier => simp [NamespaceState.passOf, pc] at found
      | polling => simp [NamespaceState.passOf, pc] at found

theorem passOf_of_workerMove {pass : PassPc} (move : WorkerMove state next)
    (found : next.passOf .worker = some pass) :
    pass = .loadVersion (rangeBintreeInit state.ranges lrcuThreadsMax) := by
  rw [passOf_worker] at found
  cases move
  case startPass => exact (WorkerPc.passing.inj found).symm
  case destroy pc _ _ _ | destroyHead pc _ _ _ =>
    exact absurd (pc.symm.trans found) (by simp)
  all_goals simp at found

theorem passOf_of_callerMove {c : CallerId} {pc pc' : CallerPc} {pass : PassPc}
    (move : CallerMove state c pc pc')
    (found : (state.setCaller c pc').passOf (.caller c) = some pass) :
    ∃ ranges, pass = .loadVersion (rangeBintreeInit ranges lrcuThreadsMax) := by
  obtain ⟨barrier, currentVersion, found⟩ := passOf_caller.mp found
  simp only [NamespaceState.setCaller, Function.update_self] at found
  cases move with
  | loadVersion barrier ranges => exact ⟨ranges, (CallerPc.waiting.inj found).2.2.symm⟩
  | again barrier currentVersion rbt => exact ⟨rbt.r, (CallerPc.waiting.inj found).2.2.symm⟩
  | leave | leaveBarrier | loadBarrier | passBarrier | poll => simp at found

/-- Where the pass of an owner comes from: a move of its own, no step at all, or
a new call. -/
theorem passOf_of_step {action : NamespaceAction} {owner : PassOwner} {pass' : PassPc}
    (stepped : namespaceStep state action = some next)
    (found : next.passOf owner = some pass') :
    (∃ own pass middle, action = .pass owner own ∧ state.passOf owner = some pass ∧
        PassMove state owner pass own middle pass' ∧ next = middle.setPass owner pass') ∨
      (state.passOf owner = some pass' ∧ ∀ own, action ≠ .pass owner own) ∨
        ∃ ranges, pass' = .loadVersion (rangeBintreeInit ranges lrcuThreadsMax) := by
  cases action with
  | reader i action =>
      obtain ⟨_, _, _, _, rfl, _⟩ := (readerMove_of_step stepped).shape
      exact Or.inr (Or.inl ⟨found, by simp⟩)
  | writer action =>
      obtain ⟨_, _, _, _, rfl⟩ := (writerMove_of_step stepped).shape
      exact Or.inr (Or.inl ⟨found, by simp⟩)
  | call obj action =>
      obtain ⟨_, _, _, rfl⟩ := (callMove_of_step stepped).shape
      exact Or.inr (Or.inl ⟨found, by simp⟩)
  | pass own action =>
      obtain ⟨pass, middle, moved, before, move, rfl⟩ := passAction_cases stepped
      obtain ⟨_, _, shape⟩ := move.shape
      have worker : middle.worker = state.worker := by rw [shape]
      have caller : middle.caller = state.caller := by rw [shape]
      obtain ⟨self, others⟩ := passOf_setPass worker caller before moved
      by_cases same : owner = own
      · subst same
        obtain rfl := Option.some.inj (self.symm.trans found)
        exact Or.inl ⟨action, pass, middle, rfl, before, move, rfl⟩
      · refine Or.inr (Or.inl ⟨(others owner same).symm.trans found, fun other equal => ?_⟩)
        exact same (NamespaceAction.pass.inj equal).1.symm
  | worker =>
      cases owner with
      | worker => exact Or.inr (Or.inr ⟨_, passOf_of_workerMove (workerMove_of_step stepped) found⟩)
      | caller c =>
          refine Or.inr (Or.inl ⟨?_, by simp⟩)
          simpa only [NamespaceState.passOf, (workerMove_of_step stepped).frame.caller] using found
  | enter c barrier ranges =>
      obtain ⟨idle, rfl⟩ := enter_shape stepped
      cases owner with
      | worker => exact Or.inr (Or.inl ⟨found, by simp⟩)
      | caller c' =>
          by_cases same : c' = c
          · subst same
            simp [NamespaceState.passOf, NamespaceState.setCaller] at found
          · refine Or.inr (Or.inl ⟨?_, by simp⟩)
            simpa only [NamespaceState.passOf, NamespaceState.setCaller,
              Function.update_of_ne same] using found
  | caller c =>
      cases owner with
      | worker =>
          obtain ⟨_, _, rfl⟩ := callerMove_of_step stepped
          exact Or.inr (Or.inl ⟨found, by simp⟩)
      | caller c' =>
          by_cases same : c' = c
          · subst same
            obtain ⟨_, move, rfl⟩ := callerMove_of_step stepped
            exact Or.inr (Or.inr (passOf_of_callerMove move found))
          · obtain ⟨_, _, rfl⟩ := callerMove_of_step stepped
            refine Or.inr (Or.inl ⟨?_, by simp⟩)
            simpa only [NamespaceState.passOf, NamespaceState.setCaller,
              Function.update_of_ne same] using found

/-- Where a caller comes from: it has not moved, it is in a pass, it has taken
a step of its own, or it has just been called. -/
theorem caller_of_step {action : NamespaceAction} (c : CallerId)
    (stepped : namespaceStep state action = some next) :
    next.caller c = state.caller c ∨
      (∃ barrier currentVersion pass pass',
        state.caller c = .waiting barrier currentVersion pass ∧
          next.caller c = .waiting barrier currentVersion pass') ∨
      CallerMove state c (state.caller c) (next.caller c) ∨
      state.caller c = .idle ∧ ∃ barrier ranges, action = .enter c barrier ranges ∧
        next.caller c = .loadVersion barrier ranges := by
  cases action with
  | reader i action =>
      obtain ⟨_, _, _, _, rfl, _⟩ := (readerMove_of_step stepped).shape
      exact Or.inl rfl
  | writer action =>
      obtain ⟨_, _, _, _, rfl⟩ := (writerMove_of_step stepped).shape
      exact Or.inl rfl
  | call obj action =>
      obtain ⟨_, _, _, rfl⟩ := (callMove_of_step stepped).shape
      exact Or.inl rfl
  | pass owner action =>
      obtain ⟨pass, middle, pass', found, move, rfl⟩ := passAction_cases stepped
      obtain ⟨lists, lock, rfl⟩ := move.shape
      cases owner with
      | worker => exact Or.inl rfl
      | caller c' =>
          obtain ⟨barrier, currentVersion, waiting⟩ := passOf_caller.mp found
          simp only [NamespaceState.setPass, waiting, NamespaceState.setCaller]
          by_cases same : c = c'
          · subst same
            exact Or.inr (Or.inl ⟨_, _, _, _, waiting, Function.update_self _ _ _⟩)
          · exact Or.inl (Function.update_of_ne same _ _)
  | worker => exact Or.inl (congrFun (workerMove_of_step stepped).frame.caller c)
  | enter c' barrier ranges =>
      obtain ⟨idle, rfl⟩ := enter_shape stepped
      by_cases same : c = c'
      · subst same
        exact Or.inr (Or.inr (Or.inr ⟨idle, barrier, ranges, rfl, Function.update_self _ _ _⟩))
      · exact Or.inl (Function.update_of_ne same _ _)
  | caller c' =>
      obtain ⟨pc, move, rfl⟩ := callerMove_of_step stepped
      by_cases same : c = c'
      · subst same
        refine Or.inr (Or.inr (Or.inl ?_))
        simpa only [NamespaceState.setCaller, Function.update_self] using move
      · exact Or.inl (Function.update_of_ne same _ _)

theorem worker_of_step {action : NamespaceAction}
    (stepped : namespaceStep state action = some next) (others : action ≠ .worker) :
    next.workerList = state.workerList ∧ next.workerHlist = state.workerHlist ∧
      next.processedVersion = state.processedVersion ∧
        (next.worker = state.worker ∨ ∃ pass', next.worker = .passing pass') := by
  cases action with
  | reader i action =>
      obtain ⟨_, _, _, _, rfl, _⟩ := (readerMove_of_step stepped).shape
      exact ⟨rfl, rfl, rfl, Or.inl rfl⟩
  | writer action =>
      obtain ⟨_, _, _, _, rfl⟩ := (writerMove_of_step stepped).shape
      exact ⟨rfl, rfl, rfl, Or.inl rfl⟩
  | call obj action =>
      obtain ⟨_, _, _, rfl⟩ := (callMove_of_step stepped).shape
      exact ⟨rfl, rfl, rfl, Or.inl rfl⟩
  | pass owner action =>
      obtain ⟨pass, middle, pass', found, move, rfl⟩ := passAction_cases stepped
      obtain ⟨lists, lock, rfl⟩ := move.shape
      cases owner with
      | worker => exact ⟨rfl, rfl, rfl, Or.inr ⟨pass', rfl⟩⟩
      | caller c =>
          obtain ⟨barrier, currentVersion, waiting⟩ := passOf_caller.mp found
          simp only [NamespaceState.setPass, waiting]
          exact ⟨rfl, rfl, rfl, Or.inl rfl⟩
  | worker => exact absurd rfl others
  | enter c barrier ranges =>
      obtain ⟨_, rfl⟩ := enter_shape stepped
      exact ⟨rfl, rfl, rfl, Or.inl rfl⟩
  | caller c =>
      obtain ⟨_, _, rfl⟩ := callerMove_of_step stepped
      exact ⟨rfl, rfl, rfl, Or.inl rfl⟩

/-- A step of a thread may change `ns->threads`, a visit changes the lists and
the thread that it is at, and no other step touches them. -/
theorem lists_of_step {action : NamespaceAction}
    (stepped : namespaceStep state action = some next) :
    (next.lists.info = state.lists.info ∧ next.lists.hungThreads = state.lists.hungThreads ∧
        ((∀ i own, action ≠ .reader i own) → next.lists.threads = state.lists.threads)) ∨
      ∃ owner loop currentVersion index version counter rbt now visited,
        action = .pass owner (.visit now) ∧
          state.passOf owner = some (.visiting loop currentVersion index (some version)
            (some counter) rbt) ∧
          visitNext loop currentVersion ⟨state.lists, index, rbt⟩ ⟨⟨version, counter⟩, now⟩ =
            some visited ∧ next.lists = visited.lists := by
  cases action with
  | reader i action =>
      obtain ⟨_, _, _, _, rfl, _⟩ := (readerMove_of_step stepped).shape
      exact Or.inl ⟨rfl, rfl, fun others => absurd rfl (others i action)⟩
  | writer action =>
      obtain ⟨_, _, _, _, rfl⟩ := (writerMove_of_step stepped).shape
      exact Or.inl ⟨rfl, rfl, fun _ => rfl⟩
  | call obj action =>
      obtain ⟨_, _, _, rfl⟩ := (callMove_of_step stepped).shape
      exact Or.inl ⟨rfl, rfl, fun _ => rfl⟩
  | pass owner action =>
      obtain ⟨pass, middle, pass', found, move, rfl⟩ := passAction_cases stepped
      obtain ⟨_, _, set⟩ := setPass_shape middle owner pass'
      rw [set]
      cases move with
      | visit loop currentVersion index version counter rbt now visited visits =>
          exact Or.inr ⟨owner, loop, currentVersion, index, version, counter, rbt, now, visited,
            rfl, found, visits, rfl⟩
      | loadVersion | lockThreads | loadLnsVersion | loadLnsCounter | nextLoop | unlockThreads =>
          exact Or.inl ⟨rfl, rfl, fun _ => rfl⟩
  | worker =>
      rw [(workerMove_of_step stepped).frame.lists]
      exact Or.inl ⟨rfl, rfl, fun _ => rfl⟩
  | enter c barrier ranges =>
      obtain ⟨_, rfl⟩ := enter_shape stepped
      exact Or.inl ⟨rfl, rfl, fun _ => rfl⟩
  | caller c =>
      obtain ⟨_, _, rfl⟩ := callerMove_of_step stepped
      exact Or.inl ⟨rfl, rfl, fun _ => rfl⟩

/-! ## The tree of a pass -/

/-- Every range of a visit is in order or else ends at the current version,
which its reader entered after. -/
theorem visit_shaped {loop : PassLoop} {currentVersion : Nat} {info : LrcuThreadInfo}
    {sample : Sample} {range : LrcuRange}
    (added : (loop.visit currentVersion info sample).range = some range) :
    ShapedAt currentVersion range := by
  have current : ShapedAt currentVersion ⟨sample.lns.version, currentVersion⟩ :=
    (Nat.lt_or_ge currentVersion sample.lns.version).symm.imp_right fun later => ⟨rfl, later⟩
  cases loop with
  | threads =>
      simp only [PassLoop.visit, visitThread] at added
      split at added
      · exact Option.some.inj added ▸ current
      · simp at added
  | hungThreads =>
      simp only [PassLoop.visit, visitHungThread] at added
      split_ifs at added with _ newer
      · exact Option.some.inj added ▸ current
      · exact Option.some.inj added ▸ Or.inl (Nat.not_lt.mp newer)

theorem addVisitRange_spec {rbt added : LrcuRangetree} {range : Option LrcuRange}
    (ok : RangetreeOk rbt) (ran : addVisitRange rbt range = some added) (bound : Nat) :
    RangetreeOk added ∧ CoarsensUpTo bound (rbt.entries ++ range.toList) added.entries := by
  cases range with
  | none =>
      obtain rfl := Option.some.inj ran
      exact ⟨ok, by simpa using CoarsensUpTo.of_perm (List.Perm.refl _)⟩
  | some range => exact lrcuRangetreeAdd_spec ok ran bound

/-- The tree is empty before the first visit, it consists of well-shaped ranges
during the visits, and it ends up sorted. -/
def PassOk : PassPc → Prop
  | .loadVersion rbt | .lockThreads _ rbt => RangetreeOk rbt ∧ rbt.entries = []
  | .visiting _ currentVersion _ _ _ rbt =>
      RangetreeOk rbt ∧ ∀ range ∈ rbt.entries, ShapedAt currentVersion range
  | .finished rbt => rbt.sorted = true ∧ Ascending rbt.entries

theorem passOk_init (ranges : Nat → LrcuRange) :
    PassOk (.loadVersion (rangeBintreeInit ranges lrcuThreadsMax)) :=
  ⟨rangetreeOk_init ranges (by decide), entries_rangeBintreeInit ranges lrcuThreadsMax⟩

theorem visitNext_spec {loop : PassLoop} {currentVersion : Nat}
    {pass visited : PassState ReaderId} {sample : Sample}
    (ok : RangetreeOk pass.rbt) (shaped : ∀ range ∈ pass.rbt.entries, ShapedAt currentVersion range)
    (visits : visitNext loop currentVersion pass sample = some visited) :
    RangetreeOk visited.rbt ∧ (∀ range ∈ visited.rbt.entries, ShapedAt currentVersion range) ∧
      ∀ version ≤ currentVersion,
        (Covered pass.rbt.entries version ∨ sample.lns.counter ≠ 0 ∧
          loop = .threads ∧ sample.lns.version ≤ version) →
        Covered visited.rbt.entries version := by
  obtain ⟨ti, _, added, _⟩ := visitNext_cases visits
  obtain ⟨okAdded, coarsens⟩ := addVisitRange_spec ok added currentVersion
  have shapedAll : ∀ range ∈ pass.rbt.entries ++
      (loop.visit currentVersion (pass.lists.info ti) sample).range.toList,
      ShapedAt currentVersion range := by
    intro range member
    rcases List.mem_append.mp member with before | new
    · exact shaped range before
    · exact visit_shaped (Option.mem_toList.mp new)
  refine ⟨okAdded, coarsens.shaped shapedAll, fun version le reason =>
    coarsens.covers shapedAll version le ((covered_append _ _ version).mpr ?_)⟩
  refine reason.imp_right ?_
  rintro ⟨active, rfl, entered⟩
  exact ⟨⟨sample.lns.version, currentVersion⟩, by simp [PassLoop.visit, visitThread, active],
    entered, le⟩

theorem PassOk.step {owner : PassOwner} {pass pass' : PassPc} {action : PassAction}
    (ok : PassOk pass) (move : PassMove state owner pass action next pass') : PassOk pass' := by
  cases move with
  | loadVersion rbt => exact ok
  | lockThreads currentVersion rbt free =>
      exact ⟨ok.1, by simp [ok.2]⟩
  | loadLnsVersion | loadLnsCounter | nextLoop => exact ok
  | visit loop currentVersion index version counter rbt now visited visits =>
      obtain ⟨okNext, shaped, _⟩ := visitNext_spec ok.1 ok.2 visits
      exact ⟨okNext, shaped⟩
  | unlockThreads currentVersion index rbt merged room all optimized =>
      obtain ⟨_, sorted, _, separated, _⟩ := optimize_merge_spec ok.1 optimized currentVersion
      exact ⟨sorted, separated.ascending⟩

/-! ## The lock of the lists -/

def PassPc.Visiting : PassPc → Prop
  | .visiting .. => True
  | _ => False

/-- What holds of the readers and the passes whatever the hang tests decide. -/
structure NamespaceOk (state : NamespaceState) : Prop where
  readers : ∀ i, ReaderOk (state.lns i) (state.reader i)
  passes : ∀ owner pass, state.passOf owner = some pass → PassOk pass
  locked : ∀ owner pass, state.passOf owner = some pass → pass.Visiting →
    state.threadsLock = some owner

namespace NamespaceOk

theorem init (workerTi : ReaderId) (ranges : Nat → LrcuRange) :
    NamespaceOk (namespaceInit workerTi ranges) where
  readers _ := ⟨by simp [namespaceInit, IsI32], by simp [namespaceInit]⟩
  passes owner pass found := by
    cases owner <;> simp [namespaceInit, NamespaceState.passOf] at found
  locked owner pass found := by
    cases owner <;> simp [namespaceInit, NamespaceState.passOf] at found

/-- Nobody but the pass that visits threads changes the lists or takes the
lock. -/
theorem visiting_frame {action : NamespaceAction} {owner : PassOwner} {pass : PassPc}
    (ok : NamespaceOk state) (stepped : namespaceStep state action = some next)
    (found : state.passOf owner = some pass) (visiting : pass.Visiting)
    (others : ∀ own, action ≠ .pass owner own) :
    next.lists = state.lists ∧ next.threadsLock = state.threadsLock := by
  have taken := ok.locked owner pass found visiting
  cases action with
  | reader i action =>
      obtain ⟨_, _, _, threads, rfl, _, same | free⟩ := (readerMove_of_step stepped).shape
      · subst same
        exact ⟨rfl, rfl⟩
      · simp [taken] at free
  | writer action =>
      obtain ⟨_, _, _, _, rfl⟩ := (writerMove_of_step stepped).shape
      exact ⟨rfl, rfl⟩
  | call obj action =>
      obtain ⟨_, _, _, rfl⟩ := (callMove_of_step stepped).shape
      exact ⟨rfl, rfl⟩
  | pass own action =>
      obtain ⟨pass, middle, pass', before, move, rfl⟩ := passAction_cases stepped
      obtain ⟨_, _, set⟩ := setPass_shape middle own pass'
      rw [set]
      have unlocked : ¬ pass.Visiting := fun inside => by
        have same := (ok.locked own pass before inside).symm.trans taken
        exact others action (by rw [Option.some.inj same])
      cases move with
      | loadVersion => exact ⟨rfl, rfl⟩
      | lockThreads currentVersion rbt free => simp [taken] at free
      | loadLnsVersion | loadLnsCounter | visit | nextLoop | unlockThreads =>
          exact absurd trivial unlocked
  | worker =>
      have frame := (workerMove_of_step stepped).frame
      exact ⟨frame.lists, frame.threadsLock⟩
  | enter c barrier ranges =>
      obtain ⟨_, rfl⟩ := enter_shape stepped
      exact ⟨rfl, rfl⟩
  | caller c =>
      obtain ⟨_, _, rfl⟩ := callerMove_of_step stepped
      exact ⟨rfl, rfl⟩

private theorem locked_of_move {owner : PassOwner} {pass pass' : PassPc} {action : PassAction}
    (locked : pass.Visiting → state.threadsLock = some owner)
    (move : PassMove state owner pass action next pass') (visiting : pass'.Visiting) :
    next.threadsLock = some owner := by
  cases move with
  | loadVersion | unlockThreads => exact visiting.elim
  | lockThreads => rfl
  | loadLnsVersion | loadLnsCounter | visit | nextLoop => exact locked trivial

theorem step {action : NamespaceAction} (ok : NamespaceOk state)
    (stepped : namespaceStep state action = some next) : NamespaceOk next where
  readers i := by
    by_cases own : ∃ own, action = .reader i own
    · obtain ⟨own, rfl⟩ := own
      exact (ok.readers i).own_step (readerMove_of_step stepped)
    · obtain ⟨lns, reader, _⟩ := reader_eq_of_step stepped (not_exists.mp own)
      rw [lns, reader]
      exact ok.readers i
  passes owner pass' found := by
    rcases passOf_of_step stepped found with
      ⟨own, pass, middle, _, before, move, _⟩ | ⟨before, _⟩ | ⟨ranges, rfl⟩
    · exact (ok.passes owner pass before).step move
    · exact ok.passes owner pass' before
    · exact passOk_init ranges
  locked owner pass' found visiting := by
    rcases passOf_of_step stepped found with
      ⟨own, pass, middle, _, before, move, rfl⟩ | ⟨before, others⟩ | ⟨ranges, rfl⟩
    · have taken := locked_of_move (ok.locked owner pass before) move visiting
      obtain ⟨_, _, set⟩ := setPass_shape middle owner pass'
      rwa [set]
    · rw [(ok.visiting_frame stepped before visiting others).2]
      exact ok.locked owner pass' before visiting
    · exact visiting.elim

end NamespaceOk

end LightRcu
