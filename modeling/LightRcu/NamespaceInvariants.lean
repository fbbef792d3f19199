import LightRcu.NamespaceFrames
import LightRcu.RangeTreeAdd

/-!
# Invariants of a namespace

What holds of the readers, of the passes and of `threads_lock` in every
reachable state, whatever the hang tests decide.
-/

namespace LightRcu

open ClosedInterval Execution

variable {state next : NamespaceState}

/-! ## Steps of the whole system -/

theorem setPass_shape (state : NamespaceState) (owner : PassOwner) (pass : PassPc) :
    ∃ worker caller, state.setPass owner pass =
      { state with worker := worker, caller := caller } := by
  cases owner with
  | worker => exact ⟨_, _, rfl⟩
  | caller c =>
      cases pc : state.caller c with
      | waiting barrier currentVersion before =>
          exact ⟨_, _, by simp only [NamespaceState.setPass, pc]; rfl⟩
      | idle => exact ⟨_, _, by simp only [NamespaceState.setPass, pc]; rfl⟩
      | loadVersion => exact ⟨_, _, by simp only [NamespaceState.setPass, pc]; rfl⟩
      | loadBarrier => exact ⟨_, _, by simp only [NamespaceState.setPass, pc]; rfl⟩
      | polling => exact ⟨_, _, by simp only [NamespaceState.setPass, pc]; rfl⟩

theorem passAction_cases {owner : PassOwner} {action : PassAction}
    (stepped : namespaceStep state (.pass owner action) = some next) :
    ∃ pass middle pass', state.passOf owner = some pass ∧
      PassMove state owner pass action middle pass' ∧
        next = middle.setPass owner pass' := by
  obtain ⟨pass, found, stepped⟩ := Option.bind_eq_some_iff.mp stepped
  obtain ⟨⟨middle, pass'⟩, passed, rfl⟩ := Option.map_eq_some_iff.mp stepped
  exact ⟨pass, middle, pass', found, passMove_of_step passed, rfl⟩

theorem passAction_shape {owner : PassOwner} {action : PassAction}
    (stepped : namespaceStep state (.pass owner action) = some next) :
    ∃ lists lock worker caller,
      next = { state with
        lists := lists, threadsLock := lock, worker := worker, caller := caller } := by
  obtain ⟨pass, middle, pass', _, move, rfl⟩ := passAction_cases stepped
  obtain ⟨lists, lock, rfl⟩ := move.shape
  obtain ⟨worker, caller, set⟩ := setPass_shape
    { state with lists := lists, threadsLock := lock } owner pass'
  exact ⟨lists, lock, worker, caller, set⟩

theorem enter_shape {c : CallerId} {barrier : Bool} {ranges : Nat → LrcuRange}
    (stepped : namespaceStep state (.enter c barrier ranges) = some next) :
    state.caller c = .idle ∧ next = state.setCaller c (.loadVersion barrier ranges) := by
  simp only [namespaceStep] at stepped
  split at stepped
  next idle => exact ⟨idle, (Option.some.inj stepped).symm⟩
  next => simp at stepped

private theorem version_of_workerMove (move : WorkerMove state next) :
    next.version = if state.bumps .worker then u64Succ state.version else state.version := by
  cases move
  case destroy pc _ _ _ | destroyHead pc _ _ _ =>
    simp [NamespaceState.bumps, NamespaceState.setStage, pc]
  all_goals simp [NamespaceState.bumps, *]

private theorem version_of_writerStep {action : WriterAction}
    (stepped : writerStep state action = some next) :
    next.version =
      if state.bumps (.writer action) then u64Succ state.version else state.version := by
  cases action with
  | assignStore =>
      simp only [writerStep] at stepped
      split at stepped
      next cell new _ =>
        simp only [Option.ite_none_right_eq_some, Option.some.injEq] at stepped
        obtain ⟨_, rfl⟩ := stepped
        cases state.cell cell <;> cases new <;> rfl
      next => simp at stepped
  | lrcuSpinLock | bumpVersion | assignBarrier | lrcuWriteUnlockNs =>
      simp only [writerStep, Option.ite_none_right_eq_some, Option.some.injEq] at stepped
      exact stepped.2 ▸ rfl
  | lrcuWriteBarrierNs => exact Option.some.inj stepped ▸ rfl

theorem version_of_step {action : NamespaceAction}
    (stepped : namespaceStep state action = some next) :
    next.version = if state.bumps action then u64Succ state.version else state.version := by
  cases action with
  | reader i action =>
      obtain ⟨_, _, _, _, rfl, _⟩ := (readerMove_of_step stepped).shape
      rfl
  | writer action => exact version_of_writerStep stepped
  | call obj action =>
      obtain ⟨_, _, _, rfl⟩ := (callMove_of_step stepped).shape
      rfl
  | pass owner action =>
      obtain ⟨_, _, _, _, rfl⟩ := passAction_shape stepped
      rfl
  | worker => exact version_of_workerMove (workerMove_of_step stepped)
  | enter c barrier ranges =>
      obtain ⟨_, rfl⟩ := enter_shape stepped
      rfl
  | caller c =>
      obtain ⟨_, _, rfl⟩ := callerMove_of_step stepped
      rfl

theorem version_le_succ_of_step {action : NamespaceAction}
    (stepped : namespaceStep state action = some next) : next.version ≤ state.version + 1 := by
  rw [version_of_step stepped]
  split_ifs
  · exact u64Succ_le _
  · exact Nat.le_succ _

/-- The version does not decrease unless it wraps. -/
theorem version_le_of_step {action : NamespaceAction} (fits : VersionFits state action)
    (stepped : namespaceStep state action = some next) : state.version ≤ next.version := by
  rw [version_of_step stepped]
  split_ifs with bumps
  · rw [u64Succ_of_lt (fits bumps)]
    exact Nat.le_succ _
  · exact Nat.le_refl _

/-- Only a thread itself changes its local namespace and what it holds. -/
theorem reader_eq_of_step {action : NamespaceAction} {i : ReaderId}
    (stepped : namespaceStep state action = some next)
    (others : ∀ own, action ≠ .reader i own) :
    next.lns i = state.lns i ∧ next.reader i = state.reader i ∧
      next.held i = state.held i := by
  cases action with
  | reader j action =>
      obtain ⟨_, _, _, _, rfl, same, _⟩ := (readerMove_of_step stepped).shape
      refine same i ?_
      rintro rfl
      exact others action rfl
  | writer action =>
      obtain ⟨_, _, _, _, rfl⟩ := (writerMove_of_step stepped).shape
      exact ⟨rfl, rfl, rfl⟩
  | call obj action =>
      obtain ⟨_, _, _, rfl⟩ := (callMove_of_step stepped).shape
      exact ⟨rfl, rfl, rfl⟩
  | pass owner action =>
      obtain ⟨_, _, _, _, rfl⟩ := passAction_shape stepped
      exact ⟨rfl, rfl, rfl⟩
  | worker =>
      have frame := (workerMove_of_step stepped).frame
      exact ⟨congrFun frame.lns i, congrFun frame.reader i, congrFun frame.held i⟩
  | enter c barrier ranges =>
      obtain ⟨_, rfl⟩ := enter_shape stepped
      exact ⟨rfl, rfl, rfl⟩
  | caller c =>
      obtain ⟨_, _, rfl⟩ := callerMove_of_step stepped
      exact ⟨rfl, rfl, rfl⟩

/-! ## Readers -/

/-- A thread between two of its steps. -/
structure ReaderOk (lns : LrcuLocalNamespace) (pc : ReaderPc) : Prop where
  counter : IsI32 lns.counter
  storing : ∀ loaded, pc = .storing loaded → lns.counter = 1

theorem ReaderOk.own_step {i : ReaderId} {action : ReaderAction}
    (ok : ReaderOk (state.lns i) (state.reader i)) (move : ReaderMove state i action next) :
    ReaderOk (next.lns i) (next.reader i) := by
  cases move with
  | lockCount =>
      refine ⟨?_, by simp [NamespaceState.setReader]⟩
      simpa [NamespaceState.setReader, NamespaceState.setLns] using isI32_succ _
  | lockFirst entered first => exact ⟨ok.counter, fun _ _ => first⟩
  | lockNested entered nested => exact ⟨ok.counter, by simp [NamespaceState.setReader]⟩
  | lockStore version storing =>
      refine ⟨?_, by simp [NamespaceState.setReader]⟩
      simpa [NamespaceState.setReader, NamespaceState.setLns] using ok.counter
  | dereference | dereferenceNull | setNs | delNs => exact ok
  | unlockLast idle last =>
      refine ⟨?_, by simp [NamespaceState.setHeld, NamespaceState.setLns, idle]⟩
      simp [NamespaceState.setHeld, NamespaceState.setLns, IsI32]
  | unlockNested idle nested counted =>
      refine ⟨?_, by simp [NamespaceState.setLns, idle]⟩
      simpa [NamespaceState.setLns] using isI32_pred _

/-- What a thread has loaded is not newer than the version of the namespace. -/
structure ReaderOlder (version : Nat) (lns : LrcuLocalNamespace) (pc : ReaderPc) : Prop where
  versionLe : lns.version ≤ version
  storingLe : ∀ loaded, pc = .storing loaded → loaded ≤ version

theorem ReaderOlder.own_step {i : ReaderId} {action : ReaderAction}
    (older : ReaderOlder state.version (state.lns i) (state.reader i))
    (move : ReaderMove state i action next) :
    ReaderOlder next.version (next.lns i) (next.reader i) := by
  cases move with
  | lockCount =>
      refine ⟨?_, by simp [NamespaceState.setReader]⟩
      simpa [NamespaceState.setReader, NamespaceState.setLns] using older.versionLe
  | lockFirst entered first => exact ⟨older.versionLe, by simp [NamespaceState.setReader]⟩
  | lockNested entered nested => exact ⟨older.versionLe, by simp [NamespaceState.setReader]⟩
  | lockStore version storing =>
      refine ⟨?_, by simp [NamespaceState.setReader]⟩
      simpa [NamespaceState.setReader, NamespaceState.setLns] using
        older.storingLe version storing
  | dereference | dereferenceNull | setNs | delNs => exact older
  | unlockLast =>
      refine ⟨?_, older.storingLe⟩
      simpa [NamespaceState.setHeld, NamespaceState.setLns] using older.versionLe
  | unlockNested =>
      refine ⟨?_, older.storingLe⟩
      simpa [NamespaceState.setLns] using older.versionLe

/-- No thread is ahead of the version, which holds until it wraps. -/
def VersionsOk (state : NamespaceState) : Prop :=
  ∀ i, ReaderOlder state.version (state.lns i) (state.reader i)

theorem VersionsOk.init (workerTi : ReaderId) (ranges : Nat → LrcuRange) :
    VersionsOk (namespaceInit workerTi ranges) :=
  fun _ => ⟨Nat.zero_le _, by simp [namespaceInit]⟩

theorem VersionsOk.step {action : NamespaceAction} (ok : VersionsOk state)
    (fits : VersionFits state action) (stepped : namespaceStep state action = some next) :
    VersionsOk next := by
  intro i
  by_cases own : ∃ own, action = .reader i own
  · obtain ⟨own, rfl⟩ := own
    exact (ok i).own_step (readerMove_of_step stepped)
  · obtain ⟨lns, reader, _⟩ := reader_eq_of_step stepped (not_exists.mp own)
    have grown := version_le_of_step fits stepped
    rw [lns, reader]
    exact ⟨(ok i).versionLe.trans grown,
      fun loaded its => ((ok i).storingLe loaded its).trans grown⟩

/-- The counters are nesting depths, which holds until one wraps. -/
def DepthsOk (state : NamespaceState) : Prop :=
  ∀ i, 0 ≤ (state.lns i).counter ∧ (state.lns i).counter < 2 ^ 31

theorem DepthsOk.init (workerTi : ReaderId) (ranges : Nat → LrcuRange) :
    DepthsOk (namespaceInit workerTi ranges) :=
  fun _ => by simp [namespaceInit]

theorem DepthsOk.isI32 (ok : DepthsOk state) (i : ReaderId) : IsI32 (state.lns i).counter :=
  ⟨by have := (ok i).1; omega, (ok i).2⟩

/-- A thread that leaves a section has one section less around it. -/
theorem DepthsOk.i32Pred_eq (ok : DepthsOk state) {i : ReaderId}
    (left : 0 ≤ i32Pred (state.lns i).counter) :
    0 < (state.lns i).counter ∧ i32Pred (state.lns i).counter = (state.lns i).counter - 1 := by
  have counted := (ok i).1
  exact (i32Pred_cases (ok.isI32 i) left).resolve_right (by omega)

/-- A step enters at most one section more. -/
theorem DepthsOk.counter_of_step {action : NamespaceAction} (ok : DepthsOk state)
    (fits : DepthFits state action) (stepped : namespaceStep state action = some next)
    (i : ReaderId) :
    (next.lns i).counter ≤ (state.lns i).counter ∧ 0 ≤ (next.lns i).counter ∨
      (next.lns i).counter = (state.lns i).counter + 1 ∧
        (state.lns i).counter < 2 ^ 31 - 1 := by
  by_cases own : ∃ own, action = .reader i own
  · obtain ⟨own, rfl⟩ := own
    have counted := (ok i).1
    cases readerMove_of_step stepped with
    | lockCount =>
        refine Or.inr ⟨?_, fits i rfl⟩
        simp only [NamespaceState.setReader, NamespaceState.setLns, Function.update_self,
          i32Succ_of_lt (ok.isI32 i) (fits i rfl)]
    | lockStore =>
        exact Or.inl (by simpa [NamespaceState.setReader, NamespaceState.setLns] using counted)
    | unlockLast =>
        exact Or.inl (by simpa [NamespaceState.setHeld, NamespaceState.setLns] using counted)
    | unlockNested idle nested left =>
        obtain ⟨inside, shallower⟩ := ok.i32Pred_eq left
        refine Or.inl ?_
        simp only [NamespaceState.setLns, Function.update_self, shallower]
        omega
    | lockFirst | lockNested | dereference | dereferenceNull | setNs | delNs =>
        exact Or.inl ⟨le_rfl, counted⟩
  · rw [(reader_eq_of_step stepped (not_exists.mp own)).1]
    exact Or.inl ⟨le_rfl, (ok i).1⟩

theorem DepthsOk.step {action : NamespaceAction} (ok : DepthsOk state)
    (fits : DepthFits state action) (stepped : namespaceStep state action = some next) :
    DepthsOk next := by
  intro i
  have bounded := (ok i).2
  rcases ok.counter_of_step fits stepped i with ⟨shallower, counted⟩ | ⟨deeper, room⟩
  · omega
  · have counted := (ok i).1
    omega

/-- Once it is inside, a thread keeps its version until it leaves its
outermost read section. -/
theorem inside_of_own_step {i : ReaderId} {action : ReaderAction} (depths : DepthsOk state)
    (fits : DepthFits state (.reader i action)) (inside : state.Inside i)
    (move : ReaderMove state i action next) :
    (next.Inside i ∧ (next.lns i).version = (state.lns i).version) ∨
      (next.lns i).counter = 0 := by
  cases move with
  | lockCount idle =>
      refine Or.inl ⟨Or.inr ?_, by simp [NamespaceState.setReader, NamespaceState.setLns]⟩
      have nested : 1 ≤ (state.lns i).counter := by
        rcases inside with ⟨_, counted⟩ | ⟨entered, _⟩
        · exact counted
        · simp [idle] at entered
      simp only [NamespaceState.setReader, NamespaceState.setLns, Function.update_self,
        true_and, i32Succ_of_lt (depths.isI32 i) (fits i rfl)]
      omega
  | lockFirst entered first =>
      rcases inside with ⟨idle, _⟩ | ⟨_, nested⟩
      · simp [idle] at entered
      · omega
  | lockNested entered =>
      refine Or.inl ⟨Or.inl ⟨by simp [NamespaceState.setReader], ?_⟩, rfl⟩
      change 1 ≤ (state.lns i).counter
      rcases inside with ⟨idle, _⟩ | ⟨_, nested⟩
      · simp [idle] at entered
      · omega
  | lockStore version storing =>
      rcases inside with ⟨idle, _⟩ | ⟨entered, _⟩
      · simp [idle] at storing
      · simp [entered] at storing
  | dereference | dereferenceNull | setNs | delNs => exact Or.inl ⟨inside, rfl⟩
  | unlockLast idle last =>
      exact Or.inr (by simp [NamespaceState.setHeld, NamespaceState.setLns])
  | unlockNested idle nested left =>
      obtain ⟨counted, shallower⟩ := depths.i32Pred_eq left
      refine Or.inl ⟨Or.inl ⟨idle, ?_⟩, by simp [NamespaceState.setLns]⟩
      simp only [NamespaceState.setLns, Function.update_self, shallower]
      omega

theorem inside_of_step {action : NamespaceAction} {i : ReaderId} (depths : DepthsOk state)
    (fits : DepthFits state action) (inside : state.Inside i)
    (stepped : namespaceStep state action = some next) :
    (next.Inside i ∧ (next.lns i).version = (state.lns i).version) ∨
      (next.lns i).counter = 0 := by
  by_cases own : ∃ own, action = .reader i own
  · obtain ⟨own, rfl⟩ := own
    exact inside_of_own_step depths fits inside (readerMove_of_step stepped)
  · obtain ⟨lns, reader, _⟩ := reader_eq_of_step stepped (not_exists.mp own)
    refine Or.inl ⟨?_, by rw [lns]⟩
    unfold NamespaceState.Inside
    rw [lns, reader]
    exact inside

theorem NamespaceState.Inside.counter_pos {i : ReaderId} (inside : state.Inside i) :
    1 ≤ (state.lns i).counter := by
  rcases inside with ⟨_, counted⟩ | ⟨_, counted⟩
  · exact counted
  · omega

/-- The thread has completed a lock since its counter was zero, and may be
nesting.  This survives a wrap of the counter other than to zero. -/
def NamespaceState.Within (state : NamespaceState) (i : ReaderId) : Prop :=
  (state.lns i).counter ≠ 0 ∧
    (state.reader i = .idle ∨ state.reader i = .entered ∧ (state.lns i).counter ≠ 1)

theorem within_of_own_step {i : ReaderId} {action : ReaderAction}
    (word : IsI32 (state.lns i).counter) (within : state.Within i)
    (move : ReaderMove state i action next) :
    (next.Within i ∧ (next.lns i).version = (state.lns i).version) ∨
      (next.lns i).counter = 0 := by
  refine or_iff_not_imp_right.mpr fun stays => ?_
  obtain ⟨counted, place⟩ := within
  cases move with
  | lockCount idle =>
      refine ⟨⟨stays, Or.inr ⟨by simp [NamespaceState.setReader], ?_⟩⟩, ?_⟩
      · simpa [NamespaceState.setReader, NamespaceState.setLns] using
          fun one => counted (eq_zero_of_i32Succ word one)
      · simp [NamespaceState.setReader, NamespaceState.setLns]
  | lockFirst entered first =>
      rcases place with idle | ⟨_, nested⟩
      · simp [idle] at entered
      · exact absurd first nested
  | lockNested entered =>
      exact ⟨⟨counted, Or.inl (by simp [NamespaceState.setReader])⟩, rfl⟩
  | lockStore version storing =>
      rcases place with idle | ⟨entered, _⟩
      · simp [idle] at storing
      · simp [entered] at storing
  | dereference | dereferenceNull | setNs | delNs => exact ⟨⟨counted, place⟩, rfl⟩
  | unlockLast =>
      exact absurd (by simp [NamespaceState.setHeld, NamespaceState.setLns]) stays
  | unlockNested idle => exact ⟨⟨stays, Or.inl idle⟩, by simp [NamespaceState.setLns]⟩

theorem within_of_step {action : NamespaceAction} {i : ReaderId}
    (word : IsI32 (state.lns i).counter) (within : state.Within i)
    (stepped : namespaceStep state action = some next) :
    (next.Within i ∧ (next.lns i).version = (state.lns i).version) ∨
      (next.lns i).counter = 0 := by
  by_cases own : ∃ own, action = .reader i own
  · obtain ⟨own, rfl⟩ := own
    exact within_of_own_step word within (readerMove_of_step stepped)
  · obtain ⟨lns, reader, _⟩ := reader_eq_of_step stepped (not_exists.mp own)
    refine Or.inl ⟨?_, by rw [lns]⟩
    unfold NamespaceState.Within
    rw [lns, reader]
    exact within

end LightRcu
