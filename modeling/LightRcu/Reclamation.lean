import LightRcu.StaleRanges

/-!
# What is waited for comes

In an infinite run in which the owner of a pass takes steps again and again, the
pass comes to its end, since what is left of it shrinks with every step.  A
caller of `lrcu_synchronize_ns` whose passes meet no reader that it has to wait
for then returns, and the worker invokes the destructor of a callback that no
reader holds back, unless the array that the pass begins with does.
-/

namespace LightRcu

open ClosedInterval Execution

variable {state next : NamespaceState} {version : Nat}

/-! ## Callers -/

/-- The caller waits for the version, which its pass does not hold back. -/
def CallerClear (barrier : Bool) (version : Nat) (c : CallerId) (state : NamespaceState) :
    Prop :=
  ∃ pass, state.caller c = .waiting barrier version pass ∧ Clear version pass.rbt

def callerRank (c : CallerId) (state : NamespaceState) : Nat ×ₗ Nat :=
  match state.caller c with
  | .waiting _ _ pass => toLex (pass.rank state.lists)
  | _ => toLex (0, 0)

private theorem callerRank_of_waiting {c : CallerId} {barrier : Bool} {pass : PassPc}
    (waiting : state.caller c = .waiting barrier version pass) :
    callerRank c state = toLex (pass.rank state.lists) := by
  simp only [callerRank, waiting]

/-- Where `lrcu_synchronize_ns` leaves its caller, which may be `lrcu_barrier_ns`. -/
def afterSynchronize : Bool → CallerPc
  | true => .loadBarrier
  | false => .idle

/-- A caller that waits for nobody leaves its loop, or is a step closer to that
whenever it moves. -/
theorem CallerClear.step {barrier : Bool} {c : CallerId} {action : NamespaceAction}
    (clear : CallerClear barrier version c state) (ok : NamespaceOk state)
    (newer : MeetsNewer (.caller c) version state action)
    (stepped : namespaceStep state action = some next) :
    next.caller c = afterSynchronize barrier ∨
      CallerClear barrier version c next ∧ callerRank c next ≤ callerRank c state ∧
        (action.byCaller c → callerRank c next < callerRank c state) := by
  obtain ⟨pass, waiting, clear⟩ := clear
  have found := passOf_caller.mpr ⟨barrier, version, waiting⟩
  rcases waiting_of_step stepped waiting with
    ⟨own, middle, pass', rfl, move, lists, after⟩ | ⟨rfl, move⟩ | ⟨foreign, after⟩
  · right
    have lower : callerRank c next < callerRank c state := by
      rw [callerRank_of_waiting waiting, callerRank_of_waiting after, lists]
      exact move.rank_lt
    exact ⟨⟨pass', after, clear.step newer found move⟩, lower.le, fun _ => lower⟩
  · left
    generalize after : next.caller c = pc at move
    cases move with
    | again _ _ rbt held => exact absurd (clear.find.symm.trans held) (by simp)
    | leave | leaveBarrier => rfl
  · right
    have same : callerRank c next = callerRank c state := by
      rw [callerRank_of_waiting waiting, callerRank_of_waiting after,
        rank_of_foreign_step ok stepped found]
      rintro own rfl
      exact foreign rfl
    exact ⟨⟨pass, after, clear⟩, same.le, fun own => absurd own foreign⟩

theorem synchronize_returns {infinite : InfiniteRun namespaceStep} {start : Nat} {c : CallerId}
    {barrier : Bool} (ok : NamespaceOk (infinite.states start))
    (clear : CallerClear barrier version c (infinite.states start))
    (recurs : infinite.RecursUntil start (fun state => ¬ (state.caller c).Synchronizing)
      (·.byCaller c))
    (newer : infinite.MeetsFrom start (MeetsNewer (.caller c) version)) :
    ∃ later, start ≤ later ∧ ¬ ((infinite.states later).caller c).Synchronizing := by
  apply InfiniteRun.reaches (fun state => ¬ (state.caller c).Synchronizing)
    (fun state => NamespaceOk state ∧ CallerClear barrier version c state) (callerRank c)
    _ recurs newer ⟨ok, clear⟩
  intro state action next newer holds stepped
  rcases holds.2.step holds.1 newer stepped with arrived | ⟨clear, le, lower⟩
  · left
    rw [arrived]
    cases barrier <;> simp [afterSynchronize, CallerPc.Synchronizing]
  · exact Or.inr ⟨⟨holds.1.step stepped, clear⟩, le, lower⟩

/-! ### Passes that meet nobody -/

/-- The counters that the pass of the owner has loaded are zero. -/
def LoadsZero (owner : PassOwner) (state : NamespaceState) : Prop :=
  ∀ loop currentVersion index sampled counter rbt,
    state.passOf owner = some (.visiting loop currentVersion index sampled (some counter) rbt) →
      counter = 0

theorem LoadsZero.step {owner : PassOwner} {action : NamespaceAction}
    (zero : LoadsZero owner state) (nobody : MeetsNobody owner state action)
    (stepped : namespaceStep state action = some next) : LoadsZero owner next := by
  intro loop currentVersion index sampled counter rbt found
  rcases passOf_of_step stepped found with
    ⟨own, pass, middle, rfl, before, move, _⟩ | ⟨before, _⟩ | ⟨ranges, new⟩
  · cases move with
    | loadLnsVersion => exact zero _ _ _ _ _ _ before
    | loadLnsCounter _ _ _ _ _ ti there =>
        exact nobody _ _ _ _ _ ti rfl before there
  · exact zero _ _ _ _ _ _ before
  · simp at new

theorem LoadsZero.meetsNewer {owner : PassOwner} {action : NamespaceAction}
    (zero : LoadsZero owner state) : MeetsNewer owner version state action :=
  fun _ _ _ _ _ _ _ _ found active => absurd (zero _ _ _ _ _ _ found) active

variable {infinite : InfiniteRun namespaceStep}

theorem meetsNewer_of_nobody {owner : PassOwner} {start : Nat}
    (zero : LoadsZero owner (infinite.states start))
    (nobody : infinite.MeetsFrom start (MeetsNobody owner)) :
    infinite.MeetsFrom start (MeetsNewer owner version) := by
  intro now le
  have zeroNow : LoadsZero owner (infinite.states now) :=
    InfiniteRun.invariant_from (LoadsZero owner)
      (fun _ _ _ nobody zero stepped => zero.step nobody stepped) nobody zero le
  exact zeroNow.meetsNewer

variable {workerTi : ReaderId} {ranges : Nat → LrcuRange} {front : List NamespaceAction}

theorem namespaceOk_of_infiniteRun
    (reached : run namespaceStep (namespaceInit workerTi ranges) front =
      some (infinite.states 0)) (now : Nat) : NamespaceOk (infinite.states now) := by
  apply InfiniteRun.invariant_always NamespaceOk (fun _ _ _ ok stepped => ok.step stepped)
  exact run_preserves NamespaceOk (fun _ _ _ ok stepped => ok.step stepped)
    (.init workerTi ranges) reached

/-- A caller of `lrcu_synchronize_ns` whose passes meet nobody from the beginning
of a round on returns if and only if the first cell of its array does not hold
the version that it waits for. -/
theorem synchronize_returns_iff
    (reached : run namespaceStep (namespaceInit workerTi ranges) front =
      some (infinite.states 0)) {c : CallerId} {barrier : Bool} {rbt : LrcuRangetree}
    (waits : (infinite.states 0).caller c = .waiting barrier version (.loadVersion rbt))
    (recurs : infinite.RecursUntil 0 (fun state => ¬ (state.caller c).Synchronizing)
      (·.byCaller c))
    (alone : infinite.MeetsFrom 0 (MeetsNobody (.caller c))) :
    (∃ later, ¬ ((infinite.states later).caller c).Synchronizing) ↔
      ¬ (rbt.r 0).Contains version := by
  have ok := namespaceOk_of_infiniteRun reached 0
  have found := passOf_caller.mpr ⟨barrier, version, waits⟩
  have empty : rbt.len = 0 := by
    rw [← entries_length, (ok.passes _ _ found).2, List.length_nil]
  constructor
  · rintro ⟨later, returned⟩ contains
    obtain ⟨pass, waiting, _⟩ : CallerStale barrier version c (infinite.states later) :=
      InfiniteRun.invariant_from (CallerStale barrier version c)
        (fun _ _ _ nobody stale stepped => stale.step nobody stepped) alone
        ⟨_, waits, empty, contains⟩ (Nat.zero_le later)
    exact returned (by simp [waiting, CallerPc.Synchronizing])
  · intro outside
    have zero : LoadsZero (.caller c) (infinite.states 0) := by
      intro _ _ _ _ _ _ visiting
      simp [found] at visiting
    have clear : Clear version rbt :=
      ⟨fun _ inside => absurd inside (by simp [empty]), fun _ => outside⟩
    obtain ⟨later, _, returned⟩ := synchronize_returns ok ⟨_, waits, clear⟩ recurs
      (meetsNewer_of_nobody zero alone)
    exact ⟨later, returned⟩

/-! ## The iterations of the worker -/

/-- What is left of an iteration. -/
def workerRank (state : NamespaceState) : Nat ×ₗ Nat :=
  match state.worker with
  | .testFreeList => toLex (17, 0)
  | .spliceFreeList => toLex (16, 0)
  | .testFreeHlist => toLex (15, 0)
  | .spliceFreeHlist => toLex (14, 0)
  | .testWorkerLists => toLex (13, 0)
  | .passing pass => toLex ((pass.rank state.lists).1 + 9, (pass.rank state.lists).2)
  | .walkList index _ => toLex (8, state.workerList.length - index)
  | .walkHlist index _ => toLex (7, state.workerHlist.length - index)
  | .storeMin _ => toLex (6, 0)
  | .testProcessed => toLex (5, 0)
  | .storeNext _ => toLex (4, 0)
  | .writeBarrier => toLex (3, 0)
  | .testEmpty => toLex (2, 0)
  | .storeVersion _ => toLex (1, 0)

theorem lex_lt {Rest : Type*} [LT Rest] {first first' : Nat} {rest rest' : Rest}
    (lower : first < first') : toLex (first, rest) < toLex (first', rest') :=
  Prod.Lex.toLex_lt_toLex.mpr (Or.inl lower)

private theorem lex_lt_of_eq {first second second' : Nat} (lower : second < second') :
    toLex (first, second) < toLex (first, second') :=
  Prod.Lex.toLex_lt_toLex.mpr (Or.inr ⟨rfl, lower⟩)

/-- Outside its passes, every step of the worker ends the iteration or brings it
closer to its end. -/
private theorem workerRank_of_workerMove (move : WorkerMove state next) :
    next.worker = .testFreeList ∨ workerRank next < workerRank state := by
  cases move with
  | skipFreeList pc | testFreeList pc | spliceFreeList pc | skipFreeHlist pc | testFreeHlist pc
  | spliceFreeHlist pc | skipPass pc | testProcessed pc | skipProcessed pc | writeBarrier pc
  | testEmpty pc =>
      right
      simp only [workerRank, pc]
      exact lex_lt (by omega)
  | startPass pc =>
      right
      simp only [workerRank, pc, PassPc.rank]
      exact lex_lt (by omega)
  | endPass rbt pc =>
      right
      simp only [workerRank, pc, PassPc.rank]
      exact lex_lt (by omega)
  | storeMin rbt pc | storeNext loaded pc =>
      right
      simp only [workerRank, pc]
      exact lex_lt (by omega)
  | leaveList index rbt pc | leaveHlist index rbt pc =>
      right
      simp only [workerRank, pc]
      exact lex_lt (by omega)
  | keep index rbt pc callback found | keepHead index rbt pc callback found =>
      right
      have inside := (List.getElem?_eq_some_iff.mp found).1
      simp only [workerRank, pc]
      exact lex_lt_of_eq (by omega)
  | destroy index rbt pc callback found | destroyHead index rbt pc callback found =>
      right
      have inside := (List.getElem?_eq_some_iff.mp found).1
      simp only [workerRank, NamespaceState.setStage, pc, List.length_eraseIdx_of_lt inside]
      exact lex_lt_of_eq (by omega)
  | skipEmpty | storeVersion => exact Or.inl rfl

/-- Every step of the worker ends the iteration or brings it closer to its end,
and the steps of others leave what is left of it alone. -/
theorem workerRank_of_step {action : NamespaceAction} (ok : NamespaceOk state)
    (stepped : namespaceStep state action = some next) :
    (action = .worker ∧ next.worker = .testFreeList) ∨
      workerRank next ≤ workerRank state ∧
        (action.byWorker = true → workerRank next < workerRank state) := by
  cases own : action.byWorker with
  | false =>
      right
      have others : action ≠ .worker := by
        rintro rfl
        simp [NamespaceAction.byWorker] at own
      obtain ⟨list, hlist, _⟩ := worker_of_step stepped others
      have same : workerRank next = workerRank state := by
        unfold workerRank
        rw [(worker_of_foreign_step stepped own).1, list, hlist]
        cases pc : state.worker with
        | passing pass =>
            have rank := rank_of_foreign_step ok stepped (passOf_worker.mpr pc) (by
              rintro own' rfl
              simp [NamespaceAction.byWorker] at own)
            simp only [rank]
        | _ => rfl
      exact ⟨same.le, by simp⟩
  | true =>
      cases action with
      | worker =>
          rcases workerRank_of_workerMove (workerMove_of_step stepped) with ended | lower
          · exact Or.inl ⟨rfl, ended⟩
          · exact Or.inr ⟨lower.le, fun _ => lower⟩
      | pass owner action =>
          right
          obtain rfl : owner = .worker := by cases owner <;> simp_all [NamespaceAction.byWorker]
          obtain ⟨pass, middle, pass', found, move, rfl⟩ := passAction_cases stepped
          obtain ⟨lists, lock, rfl⟩ := move.shape
          have lower : toLex (pass'.rank lists) < toLex (pass.rank state.lists) := move.rank_lt
          have rank : workerRank (NamespaceState.setPass
              { state with lists := lists, threadsLock := lock } .worker pass') <
                workerRank state := by
            simp only [workerRank, NamespaceState.setPass, passOf_worker.mp found]
            rw [Prod.Lex.toLex_lt_toLex] at lower ⊢
            exact lower.imp (by omega) fun same => ⟨by omega, same.2⟩
          exact ⟨rank.le, fun _ => rank⟩
      | reader | writer | call | enter | caller => simp [NamespaceAction.byWorker] at own

theorem iteration_ends
    (reached : run namespaceStep (namespaceInit workerTi ranges) front =
      some (infinite.states 0)) {start : Nat}
    (recurs : infinite.RecursUntil start (fun state => state.worker = .testFreeList)
      (·.byWorker = true)) :
    ∃ later, start ≤ later ∧ (infinite.states later).worker = .testFreeList := by
  have meets : infinite.MeetsFrom start fun _ _ => True := fun _ _ => trivial
  apply InfiniteRun.reaches (fun state => state.worker = .testFreeList) NamespaceOk workerRank _
    recurs meets (namespaceOk_of_infiniteRun reached start)
  intro state action next _ ok stepped
  rcases workerRank_of_step ok stepped with ⟨_, ended⟩ | ⟨le, lower⟩
  · exact Or.inl ended
  · exact Or.inr ⟨ok.step stepped, le, lower⟩

/-! ## What the worker reclaims -/

theorem Clear.not_contains {rbt : LrcuRangetree} (clear : Clear version rbt) :
    ¬ (rbt.r 0).Contains version := by
  rcases Nat.eq_zero_or_pos rbt.len with empty | nonempty
  · exact clear.2 empty
  · exact fun contains => absurd contains.1 (not_le.mpr (clear.1 0 nonempty))

/-- Wherever the array of the worker is, it does not hold the version back. -/
def WorkerPcClear (version : Nat) (ranges : Nat → LrcuRange) (worker : WorkerPc) : Prop :=
  worker.ArrayIs (fun pass => Clear version pass.rbt) (Clear version)
    (fun ranges => ¬ (ranges 0).Contains version) ranges

theorem WorkerPcClear.step {action : NamespaceAction}
    (clear : WorkerPcClear version state.ranges state.worker)
    (newer : MeetsNewer .worker version state action)
    (stepped : namespaceStep state action = some next) :
    WorkerPcClear version next.ranges next.worker := by
  apply arrayIs_of_step _ _ _ _ clear stepped
  · exact fun ranges outside => clear_rangeBintreeInit _ outside
  · rintro own pass middle pass' rfl clear found move
    exact clear.step newer found move
  · exact fun rbt clear => clear
  · exact fun rbt clear => clear.not_contains

/-- In an iteration that has not come to the callback yet, it is still ahead. -/
def CallbackAhead (callback : Callback ObjId) (state : NamespaceState) : Prop :=
  match state.worker with
  | .testFreeList | .spliceFreeList => callback ∈ state.callbacks
  | .testFreeHlist | .spliceFreeHlist => callback ∈ state.freeHlist ++ state.workerCallbacks
  | .testWorkerLists | .passing _ => callback ∈ state.workerCallbacks
  | .walkList index _ =>
      callback ∈ state.workerList.drop index ∨ callback ∈ state.workerHlist
  | .walkHlist index _ => callback ∈ state.workerHlist.drop index
  | _ => False

private theorem mem_drop_of_walk {callbacks : List (Callback ObjId)} {index : Nat}
    {callback other : Callback ObjId} (found : callbacks[index]? = some other)
    (distinct : callback ≠ other) (ahead : callback ∈ callbacks.drop index) :
    callback ∈ callbacks.drop (index + 1) ∧ callback ∈ (callbacks.eraseIdx index).drop index := by
  have behind : callback ∈ callbacks.drop (index + 1) := by
    refine (mem_drop_iff.mp ahead).resolve_left fun here => distinct ?_
    exact Option.some.inj (here.symm.trans found)
  have inside := (List.getElem?_eq_some_iff.mp found).1
  refine ⟨behind, ?_⟩
  rwa [List.eraseIdx_eq_take_drop_succ, List.drop_append_of_le_length (by simp [inside.le]),
    List.drop_take_self, List.nil_append]

private theorem not_skipPass {callback : Callback ObjId} (pc : state.worker = .testWorkerLists)
    (listed : callback ∈ state.workerCallbacks)
    (stepped : workerStep state = some { state with worker := .writeBarrier }) : False := by
  have nonempty : ¬ (state.workerList.isEmpty && state.workerHlist.isEmpty) = true := by
    rw [Bool.and_eq_true, List.isEmpty_iff, List.isEmpty_iff]
    rintro ⟨list, hlist⟩
    simp [NamespaceState.workerCallbacks, list, hlist] at listed
  simp only [workerStep, pc, if_neg nonempty, Option.some.injEq] at stepped
  have worker := congrArg NamespaceState.worker stepped
  simp at worker

private theorem CallbackAhead.worker_step {callback : Callback ObjId}
    (ahead : CallbackAhead callback state)
    (clear : WorkerPcClear callback.version state.ranges state.worker)
    (stepped : workerStep state = some next) :
    next.stage callback.obj = .destroyed ∨ CallbackAhead callback next := by
  have not_held : ∀ {rbt : LrcuRangetree} {other : Callback ObjId},
      Clear callback.version rbt → lrcuRangetreeFind rbt other.version = true →
        callback ≠ other := by
    rintro rbt other clear held rfl
    exact absurd (clear.find.symm.trans held) (by simp)
  cases workerMove_of_step stepped with
  | skipFreeList pc empty =>
      simp only [CallbackAhead, pc, NamespaceState.callbacks, empty, List.nil_append] at ahead
      exact Or.inr ahead
  | testFreeList pc | testFreeHlist pc =>
      simp only [CallbackAhead, pc] at ahead
      exact Or.inr ahead
  | spliceFreeList pc =>
      simp only [CallbackAhead, pc, NamespaceState.callbacks, NamespaceState.workerCallbacks,
        List.mem_append] at ahead ⊢
      tauto
  | skipFreeHlist pc empty =>
      simp only [CallbackAhead, pc, empty, List.nil_append] at ahead
      exact Or.inr ahead
  | spliceFreeHlist pc =>
      simp only [CallbackAhead, pc, NamespaceState.workerCallbacks, List.mem_append] at ahead ⊢
      tauto
  | skipPass pc =>
      simp only [CallbackAhead, pc] at ahead
      exact (not_skipPass pc ahead stepped).elim
  | startPass pc =>
      simp only [CallbackAhead, pc] at ahead
      exact Or.inr ahead
  | endPass rbt pc =>
      simp only [CallbackAhead, pc, NamespaceState.workerCallbacks, List.mem_append] at ahead
      exact Or.inr ahead
  | leaveList index rbt pc ended =>
      simp only [CallbackAhead, pc, List.drop_eq_nil_of_le (List.getElem?_eq_none_iff.mp ended),
        List.not_mem_nil, false_or] at ahead
      exact Or.inr ahead
  | keep index rbt pc other found held =>
      simp only [CallbackAhead, pc] at ahead
      rw [pc] at clear
      have distinct := not_held clear held
      exact Or.inr (ahead.imp_left fun ahead => (mem_drop_of_walk found distinct ahead).1)
  | destroy index rbt pc other found free =>
      simp only [CallbackAhead, pc] at ahead
      by_cases same : callback = other
      · subst same
        exact Or.inl (Function.update_self _ _ _)
      · simp only [CallbackAhead, NamespaceState.setStage, pc]
        exact Or.inr (ahead.imp_left fun ahead => (mem_drop_of_walk found same ahead).2)
  | leaveHlist index rbt pc ended =>
      simp only [CallbackAhead, pc, List.drop_eq_nil_of_le (List.getElem?_eq_none_iff.mp ended),
        List.not_mem_nil] at ahead
  | keepHead index rbt pc other found held =>
      simp only [CallbackAhead, pc] at ahead
      rw [pc] at clear
      exact Or.inr (mem_drop_of_walk found (not_held clear held) ahead).1
  | destroyHead index rbt pc other found free =>
      simp only [CallbackAhead, pc] at ahead
      by_cases same : callback = other
      · subst same
        exact Or.inl (Function.update_self _ _ _)
      · simp only [CallbackAhead, NamespaceState.setStage, pc]
        exact Or.inr (mem_drop_of_walk found same ahead).2
  | storeMin _ pc | testProcessed pc | skipProcessed pc | storeNext _ pc | writeBarrier pc
  | testEmpty pc | skipEmpty pc | storeVersion _ pc => simp only [CallbackAhead, pc] at ahead

theorem CallbackAhead.step {callback : Callback ObjId} {action : NamespaceAction}
    (ahead : CallbackAhead callback state)
    (clear : WorkerPcClear callback.version state.ranges state.worker)
    (stepped : namespaceStep state action = some next) :
    next.stage callback.obj = .destroyed ∨ CallbackAhead callback next := by
  cases own : action.byWorker with
  | false =>
      right
      have others : action ≠ .worker := by
        rintro rfl
        simp [NamespaceAction.byWorker] at own
      obtain ⟨list, hlist, _⟩ := worker_of_step stepped others
      obtain ⟨_, freeHead⟩ := freeLists_of_foreign_step stepped others
      have listed : callback ∈ state.callbacks → callback ∈ next.callbacks :=
        callback_stays (fun worker => absurd worker others) stepped
      have same : next.workerCallbacks = state.workerCallbacks := by
        simp only [NamespaceState.workerCallbacks, list, hlist]
      unfold CallbackAhead at ahead ⊢
      rw [(worker_of_foreign_step stepped own).1, list, hlist, same]
      cases pc : state.worker with
      | testFreeList | spliceFreeList =>
          rw [pc] at ahead
          exact listed ahead
      | testFreeHlist | spliceFreeHlist =>
          rw [pc] at ahead
          exact List.mem_append.mpr
            ((List.mem_append.mp ahead).imp_left fun member => freeHead member)
      | _ =>
          rw [pc] at ahead
          exact ahead
  | true =>
      cases action with
      | worker => exact ahead.worker_step clear stepped
      | pass owner action =>
          right
          obtain rfl : owner = .worker := by cases owner <;> simp_all [NamespaceAction.byWorker]
          obtain ⟨pass, middle, pass', found, move, rfl⟩ := passAction_cases stepped
          obtain ⟨lists, lock, rfl⟩ := move.shape
          rw [CallbackAhead, passOf_worker.mp found] at ahead
          exact ahead
      | reader | writer | call | enter | caller => simp [NamespaceAction.byWorker] at own

/-- The iteration does not end before it has come to the callback, and every step
of the worker brings it closer to that. -/
theorem CallbackAhead.turn {callback : Callback ObjId} {action : NamespaceAction}
    (ahead : CallbackAhead callback state) (ok : NamespaceOk state)
    (clear : WorkerPcClear callback.version state.ranges state.worker)
    (stepped : namespaceStep state action = some next) :
    next.stage callback.obj = .destroyed ∨
      CallbackAhead callback next ∧
        (action.byWorker = true → next.worker ≠ .testFreeList) ∧
          workerRank next ≤ workerRank state ∧
            (action.byWorker = true → workerRank next < workerRank state) := by
  rcases ahead.step clear stepped with destroyed | aheadNext
  · exact Or.inl destroyed
  · right
    have goesOn : action.byWorker = true → next.worker ≠ .testFreeList := by
      intro own ended
      cases action with
      | worker =>
          -- an iteration ends behind its walks, where no callback is ahead
          cases workerMove_of_step stepped with
          | skipEmpty pc | storeVersion _ pc => simp only [CallbackAhead, pc] at ahead
          | destroy _ _ pc | destroyHead _ _ pc => exact absurd (pc.symm.trans ended) (by simp)
          | _ => simp at ended
      | pass owner action =>
          obtain rfl : owner = .worker := by cases owner <;> simp_all [NamespaceAction.byWorker]
          obtain ⟨pass, middle, pass', found, move, rfl⟩ := passAction_cases stepped
          simp [NamespaceState.setPass] at ended
      | reader | writer | call | enter | caller => simp [NamespaceAction.byWorker] at own
    refine ⟨aheadNext, goesOn, (workerRank_of_step ok stepped).resolve_left ?_⟩
    rintro ⟨rfl, ended⟩
    exact goesOn rfl ended

private theorem callbacks_or_destroyed {callback : Callback ObjId}
    (queued : callback ∈ (infinite.states 0).callbacks) (now : Nat) :
    callback ∈ (infinite.states now).callbacks ∨
      ∃ later, (infinite.states later).stage callback.obj = .destroyed := by
  induction now with
  | zero => exact Or.inl queued
  | succ now ih =>
      rcases ih with listed | destroyed
      · rcases callbacks_of_step (infinite.steps now) listed with kept | destroyed
        · exact Or.inl kept
        · exact Or.inr ⟨now + 1, destroyed⟩
      · exact Or.inr destroyed

/-- A callback that is queued is destroyed in the end, if the array of the worker
does not hold its version back, and the passes of the worker find no thread in a
read section of that version or before. -/
theorem worker_reclaims
    (reached : run namespaceStep (namespaceInit workerTi ranges) front =
      some (infinite.states 0)) {callback : Callback ObjId}
    (queued : callback ∈ (infinite.states 0).callbacks)
    (clear : WorkerPcClear callback.version (infinite.states 0).ranges
      (infinite.states 0).worker)
    (recurs : infinite.RecursUntil 0 (fun state => state.stage callback.obj = .destroyed)
      (·.byWorker = true))
    (newer : infinite.MeetsFrom 0 (MeetsNewer .worker callback.version)) :
    ∃ later, (infinite.states later).stage callback.obj = .destroyed := by
  by_contra never
  have recursAlways : ∀ goal : NamespaceState → Prop,
      infinite.RecursUntil 0 goal (·.byWorker = true) :=
    fun goal now le _ => recurs now le fun destroyed => never ⟨now, destroyed⟩
  -- the callback may have been queued behind the worker, which first ends its iteration
  obtain ⟨tests, le, pc⟩ := iteration_ends reached (recursAlways _)
  have ahead : CallbackAhead callback (infinite.states tests) := by
    simp only [CallbackAhead, pc]
    exact (callbacks_or_destroyed queued tests).resolve_right never
  have clearTests : WorkerPcClear callback.version (infinite.states tests).ranges
      (infinite.states tests).worker :=
    InfiniteRun.invariant_from
      (fun state => WorkerPcClear callback.version state.ranges state.worker)
      (fun _ _ _ newer clear stepped => clear.step newer stepped) newer clear le
  obtain ⟨later, _, destroyed⟩ : ∃ later, tests ≤ later ∧
      (infinite.states later).stage callback.obj = .destroyed := by
    apply InfiniteRun.reaches (fun state => state.stage callback.obj = .destroyed)
      (fun state => NamespaceOk state ∧
        WorkerPcClear callback.version state.ranges state.worker ∧ CallbackAhead callback state)
      workerRank _ ((recursAlways _).later le) (newer.later le)
      ⟨namespaceOk_of_infiniteRun reached tests, clearTests, ahead⟩
    rintro state action next newer ⟨ok, clear, ahead⟩ stepped
    rcases ahead.turn ok clear stepped with destroyed | ⟨aheadNext, _, lower⟩
    · exact Or.inl destroyed
    · exact Or.inr ⟨⟨ok.step stepped, clear.step newer stepped, aheadNext⟩, lower⟩
  exact never ⟨later, destroyed⟩

/-! ## Runs in which nobody reads -/

/-- A run whose actions are none of the readers' goes on with version bumps for
ever, and everybody stays outside. -/
theorem exists_infiniteRun {start final : NamespaceState} {actions : List NamespaceAction}
    (ran : run namespaceStep start actions = some final) (outside : NobodyInside start)
    (others : ∀ action ∈ actions, action.byReader = false) :
    ∃ infinite : InfiniteRun namespaceStep, infinite.states 0 = start ∧
      (∀ index action, actions[index]? = some action → infinite.actions index = action) ∧
      (∀ now, infinite.states (actions.length + now) =
        { final with version := u64Succ^[now] final.version }) ∧
      ∀ now, NobodyInside (infinite.states now) := by
  obtain ⟨infinite, begins, listed, follows⟩ := (bumps final).exists_append ran
  refine ⟨infinite, begins, listed, fun now => (follows now).1, fun now => ?_⟩
  have meets : infinite.MeetsFrom 0 fun _ action => action.byReader = false := by
    intro now _
    by_cases early : now < actions.length
    · rw [listed now actions[now] (List.getElem?_eq_getElem early)]
      exact others _ (List.getElem_mem early)
    · obtain ⟨later, rfl⟩ := Nat.exists_eq_add_of_le (Nat.not_lt.mp early)
      rw [(follows later).2]
      rfl
  apply InfiniteRun.invariant_from NobodyInside
    (fun _ _ _ other outside stepped => outside.step other stepped) meets (begins ▸ outside)
    (Nat.zero_le now)

/-- Object `0` is passed to `lrcu_call_ns`. -/
def callActions : List NamespaceAction :=
  [.call 0 .retire, .call 0 (.loadVersion false), .call 0 .insert]

/-- The worker takes over a callback, makes a pass over its own thread, and comes
to the callback. -/
def reclaimActions : List NamespaceAction :=
  List.replicate 4 NamespaceAction.worker ++ passActions .worker 1 ++ [.worker]

theorem worker_reclaims_of_call :
    ∃ infinite : InfiniteRun namespaceStep,
      run namespaceStep (namespaceInit 0 fun _ => ⟨0, 0⟩) callActions =
        some (infinite.states 0) ∧
      ⟨0, 1⟩ ∈ (infinite.states 0).callbacks ∧
        ∃ later, (infinite.states later).stage 0 = .destroyed := by
  obtain ⟨called, final, reached, ran, queued, worker, ranges, destroyed, outside⟩ :
      ∃ called final, run namespaceStep (namespaceInit 0 fun _ => ⟨0, 0⟩) callActions =
          some called ∧
        run namespaceStep called (reclaimActions ++ [.worker]) = some final ∧
          ⟨0, 1⟩ ∈ called.callbacks ∧ called.worker = .testFreeList ∧
            called.ranges = (fun _ => ⟨0, 0⟩) ∧ final.stage 0 = .destroyed ∧
              NobodyInside called :=
    ⟨_, _, rfl, rfl, by decide, rfl, rfl, rfl, fun _ => rfl⟩
  obtain ⟨infinite, begins, listed, follows, outsideAlways⟩ :=
    exists_infiniteRun ran outside (by decide)
  subst begins
  refine ⟨infinite, reached, queued, ?_⟩
  have zero : LoadsZero .worker (infinite.states 0) := by
    intro _ _ _ _ _ _ visiting
    simp [passOf_worker, worker] at visiting
  have clear : WorkerPcClear 1 (infinite.states 0).ranges (infinite.states 0).worker := by
    rw [worker, ranges]
    simp [WorkerPcClear, WorkerPc.ArrayIs, ClosedInterval.Contains]
  have arrives : ∀ now, reclaimActions.length < now →
      (infinite.states now).stage 0 = .destroyed := by
    intro now late
    obtain ⟨wait, rfl⟩ := Nat.exists_eq_add_of_le late
    have after := follows wait
    rw [List.length_append, List.length_singleton] at after
    rw [Nat.succ_eq_add_one, after]
    exact destroyed
  have recurs : infinite.RecursUntil 0 (fun state => state.stage 0 = .destroyed)
      (·.byWorker = true) := InfiniteRun.recursUntil_of_last listed rfl arrives
  have newer : infinite.MeetsFrom 0 (MeetsNewer .worker 1) :=
    meetsNewer_of_nobody zero fun now _ _ _ _ _ _ ti _ _ _ => outsideAlways now ti
  exact worker_reclaims reached queued clear recurs newer

/-- A caller waits although nobody is inside, and returns behind its first pass. -/
theorem synchronize_returns_of_nobody :
    ∃ infinite : InfiniteRun namespaceStep,
      run namespaceStep (namespaceInit 0 fun _ => ⟨0, 0⟩)
          [.enter 0 false fun _ => ⟨0, 0⟩, .caller 0] = some (infinite.states 0) ∧
        ∃ later, ¬ ((infinite.states later).caller 0).Synchronizing := by
  obtain ⟨waiting, final, reached, ran, waits, idle, outside⟩ :
      ∃ waiting final, run namespaceStep (namespaceInit 0 fun _ => ⟨0, 0⟩)
          [.enter 0 false fun _ => ⟨0, 0⟩, .caller 0] = some waiting ∧
        run namespaceStep waiting (passActions (.caller 0) 1 ++ [.caller 0]) = some final ∧
          waiting.caller 0 =
              .waiting false 1 (.loadVersion (rangeBintreeInit (fun _ => ⟨0, 0⟩) lrcuThreadsMax)) ∧
            final.caller 0 = .idle ∧ NobodyInside waiting :=
    ⟨_, _, rfl, rfl, rfl, rfl, fun _ => rfl⟩
  obtain ⟨infinite, begins, listed, follows, outsideAlways⟩ :=
    exists_infiniteRun ran outside (by decide)
  subst begins
  refine ⟨infinite, reached, ?_⟩
  have arrives : ∀ now, (passActions (.caller 0) 1).length < now →
      ¬ ((infinite.states now).caller 0).Synchronizing := by
    intro now late
    obtain ⟨wait, rfl⟩ := Nat.exists_eq_add_of_le late
    have after := follows wait
    rw [List.length_append, List.length_singleton] at after
    rw [Nat.succ_eq_add_one, after, idle]
    simp [CallerPc.Synchronizing]
  have recurs : infinite.RecursUntil 0 (fun state => ¬ (state.caller 0).Synchronizing)
      (·.byCaller 0) := InfiniteRun.recursUntil_of_last listed rfl arrives
  have alone : infinite.MeetsFrom 0 (MeetsNobody (.caller 0)) :=
    fun now _ _ _ _ _ _ ti _ _ _ => outsideAlways now ti
  exact (synchronize_returns_iff reached waits recurs alone).mpr (by decide)

end LightRcu
