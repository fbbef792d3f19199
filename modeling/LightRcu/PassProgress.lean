import LightRcu.InfiniteRuns
import LightRcu.NamespacePasses
import LightRcu.SharedWorker
import Mathlib.Data.Prod.Lex

/-!
# The progress of a pass

Once a pass holds `threads_lock`, the lists stand still, and each of its steps
brings it closer to its end.  A pass that meets no reader of a version or before
does not hold that version back, unless the first cell of its array did so
before and the pass meets no reader at all.
-/

namespace LightRcu

open ClosedInterval Execution

variable {state next : NamespaceState} {version : Nat}

/-! ## Trees that do not hold a version back -/

def PassPc.rbt : PassPc → LrcuRangetree
  | .loadVersion rbt | .lockThreads _ rbt | .visiting _ _ _ _ _ rbt | .finished rbt => rbt

/-- The tree does not hold the version back: its ranges begin later, and if there
is none, the search does not find the version in the first cell either. -/
def Clear (version : Nat) (rbt : LrcuRangetree) : Prop :=
  StartsIn (version < ·) rbt ∧ (rbt.len = 0 → ¬ (rbt.r 0).Contains version)

theorem Clear.find {rbt : LrcuRangetree} (clear : Clear version rbt) :
    lrcuRangetreeFind rbt version = false := by
  rcases Nat.eq_zero_or_pos rbt.len with empty | nonempty
  · rw [← Bool.not_eq_true, lrcuRangetreeFind_of_empty empty]
    exact clear.2 empty
  · exact lrcuRangetreeFind_eq_false nonempty clear.1

theorem clear_rangeBintreeInit {ranges : Nat → LrcuRange} (capacity : Nat)
    (outside : ¬ (ranges 0).Contains version) :
    Clear version (rangeBintreeInit ranges capacity) :=
  ⟨fun _ inside => absurd inside (Nat.not_lt_zero _), fun _ => outside⟩

/-- No thread that the passes of the owner find in a read section has entered it
at the version or before. -/
def MeetsNewer (owner : PassOwner) (version : Nat) (state : NamespaceState)
    (action : NamespaceAction) : Prop :=
  ∀ now loop currentVersion index sampled counter rbt,
    action = .pass owner (.visit now) →
    state.passOf owner =
      some (.visiting loop currentVersion index (some sampled) (some counter) rbt) →
    counter ≠ 0 → version < sampled

/-- Whatever a pass adds begins at the version of a reader that it meets. -/
theorem PassMove.startsIn {owner : PassOwner} {pass pass' : PassPc} {action : PassAction}
    (move : PassMove state owner pass action next pass')
    (starts : StartsIn (version < ·) pass.rbt)
    (newer : MeetsNewer owner version state (.pass owner action))
    (found : state.passOf owner = some pass) : StartsIn (version < ·) pass'.rbt := by
  cases move with
  | loadVersion | lockThreads | loadLnsVersion | loadLnsCounter | nextLoop => exact starts
  | visit loop currentVersion index sampled counter rbt now visited visits =>
      exact (visitNext_starts starts
        (newer now loop currentVersion index sampled counter rbt rfl found) visits).1
  | unlockThreads currentVersion index rbt merged room all optimized =>
      exact (startsIn_of_optimize starts optimized).1

theorem Clear.step {owner : PassOwner} {pass pass' : PassPc} {action : PassAction}
    (clear : Clear version pass.rbt)
    (newer : MeetsNewer owner version state (.pass owner action))
    (found : state.passOf owner = some pass)
    (move : PassMove state owner pass action next pass') : Clear version pass'.rbt := by
  refine ⟨move.startsIn clear.1 newer found, fun empty => ?_⟩
  cases move with
  | loadVersion | lockThreads | loadLnsVersion | loadLnsCounter | nextLoop =>
      exact clear.2 empty
  | visit loop currentVersion index sampled counter rbt now visited visits =>
      obtain ⟨_, same, nonempty⟩ := visitNext_starts clear.1
        (newer now loop currentVersion index sampled counter rbt rfl found) visits
      by_cases idle : counter = 0
      · rw [PassPc.rbt, same idle] at empty ⊢
        exact clear.2 empty
      · exact absurd empty (nonempty (Or.inr idle)).ne'
  | unlockThreads currentVersion index rbt merged room all optimized =>
      have emptyBefore : rbt.len = 0 := by
        by_contra nonempty
        have counted := (startsIn_of_optimize clear.1 optimized).2 (Nat.pos_of_ne_zero nonempty)
        exact counted.ne' empty
      rw [PassPc.rbt, (optimize_merge_of_empty emptyBefore optimized).2]
      exact clear.2 emptyBefore

/-! ## The remaining steps -/

/-- How many of the two fields of the next thread are still to be loaded. -/
def unloaded (version : Option Nat) (counter : Option Int) : Nat :=
  (if version.isNone then 1 else 0) + (if counter.isNone then 1 else 0)

/-- The part of a pass that is left, as a number for its phase and another for
the steps in it. -/
def PassPc.rank (lists : ThreadLists ReaderId) : PassPc → Nat × Nat
  | .loadVersion _ => (3, 1)
  | .lockThreads .. => (3, 0)
  | .visiting .threads _ index version counter _ =>
      (2, 3 * (lists.threads.length - index) + unloaded version counter)
  | .visiting .hungThreads _ index version counter _ =>
      (1, 3 * (lists.hungThreads.length - index) + unloaded version counter)
  | .finished _ => (0, 0)

theorem PassMove.rank_lt {owner : PassOwner} {pass pass' : PassPc} {action : PassAction}
    (move : PassMove state owner pass action next pass') :
    toLex (pass'.rank next.lists) < toLex (pass.rank state.lists) := by
  rw [Prod.Lex.toLex_lt_toLex]
  cases move with
  | loadVersion => simp [PassPc.rank]
  | lockThreads => simp [PassPc.rank]
  | loadLnsVersion loop => cases loop <;> simp [PassPc.rank, unloaded]
  | loadLnsCounter loop => cases loop <;> simp [PassPc.rank, unloaded]
  | visit loop currentVersion index sampled counter rbt now visited visits =>
      have shorter := visitNext_remaining visits
      cases loop with
      | threads =>
          simp only [ThreadLists.walked] at shorter
          simp only [PassPc.rank, unloaded]
          right
          simp
          omega
      | hungThreads =>
          simp only [ThreadLists.walked] at shorter
          simp only [PassPc.rank, unloaded]
          right
          simp
          omega
  | nextLoop => simp [PassPc.rank]
  | unlockThreads => simp [PassPc.rank]

theorem rank_of_foreign_step {owner : PassOwner} {pass : PassPc} {action : NamespaceAction}
    (ok : NamespaceOk state) (stepped : namespaceStep state action = some next)
    (found : state.passOf owner = some pass) (others : ∀ own, action ≠ .pass owner own) :
    pass.rank next.lists = pass.rank state.lists := by
  cases pass with
  | loadVersion | lockThreads | finished => rfl
  | visiting => rw [(ok.visiting_frame stepped found trivial others).1]

/-! ## The callers of passes -/

/-- The caller takes the step, as itself or in its pass. -/
def NamespaceAction.byCaller (c : CallerId) : NamespaceAction → Prop
  | .caller c' | .pass (.caller c') _ => c' = c
  | _ => False

/-- Where a caller in the wait loop goes: on in its pass, out of it, or
nowhere while others move. -/
theorem waiting_of_step {action : NamespaceAction} {c : CallerId} {barrier : Bool}
    {pass : PassPc} (stepped : namespaceStep state action = some next)
    (waiting : state.caller c = .waiting barrier version pass) :
    (∃ own middle pass', action = .pass (.caller c) own ∧
        PassMove state (.caller c) pass own middle pass' ∧ next.lists = middle.lists ∧
          next.caller c = .waiting barrier version pass') ∨
      (action = .caller c ∧ CallerMove state c (.waiting barrier version pass) (next.caller c)) ∨
        (¬ action.byCaller c ∧ next.caller c = .waiting barrier version pass) := by
  cases action with
  | reader i action =>
      obtain ⟨_, _, _, _, rfl, _⟩ := (readerMove_of_step stepped).shape
      exact Or.inr (Or.inr ⟨id, waiting⟩)
  | writer action =>
      obtain ⟨_, _, _, _, rfl, _⟩ := (writerMove_of_step stepped).shape
      exact Or.inr (Or.inr ⟨id, waiting⟩)
  | call obj action =>
      obtain ⟨_, _, _, rfl⟩ := (callMove_of_step stepped).shape
      exact Or.inr (Or.inr ⟨id, waiting⟩)
  | pass owner action =>
      obtain ⟨before, middle, pass', found, move, rfl⟩ := passAction_cases stepped
      obtain ⟨_, _, shape⟩ := move.shape
      have same : middle.caller = state.caller := by rw [shape]
      cases owner with
      | worker => exact Or.inr (Or.inr ⟨id, same ▸ waiting⟩)
      | caller c' =>
          obtain ⟨barrier', currentVersion, waiting'⟩ := passOf_caller.mp found
          simp only [NamespaceState.setPass, same, waiting']
          by_cases own : c' = c
          · subst own
            obtain ⟨rfl, rfl, rfl⟩ := CallerPc.waiting.inj (waiting.symm.trans waiting')
            exact Or.inl ⟨action, middle, pass', rfl, move, rfl, Function.update_self _ _ _⟩
          · refine Or.inr (Or.inr ⟨own, ?_⟩)
            simpa only [NamespaceState.setCaller, Function.update_of_ne (Ne.symm own), same]
              using waiting
  | worker => exact Or.inr (Or.inr ⟨id, (workerMove_of_step stepped).frame.caller ▸ waiting⟩)
  | enter c' barrier' ranges =>
      obtain ⟨idle, rfl⟩ := enter_shape stepped
      by_cases own : c = c'
      · subst own
        simp [waiting] at idle
      · refine Or.inr (Or.inr ⟨id, ?_⟩)
        simpa only [NamespaceState.setCaller, Function.update_of_ne own] using waiting
  | caller c' =>
      obtain ⟨pc, move, rfl⟩ := callerMove_of_step stepped
      by_cases own : c' = c
      · subst own
        rw [waiting] at move
        refine Or.inr (Or.inl ⟨rfl, ?_⟩)
        simpa only [NamespaceState.setCaller, Function.update_self] using move
      · refine Or.inr (Or.inr ⟨own, ?_⟩)
        simpa only [NamespaceState.setCaller, Function.update_of_ne (Ne.symm own)] using waiting

/-! ## The array of the worker -/

/-- What holds of the array of the worker, which is in its pass, or in the tree
that a pass has left, or else between two passes. -/
def WorkerPc.ArrayIs (inPass : PassPc → Prop) (inTree : LrcuRangetree → Prop)
    (between : (Nat → LrcuRange) → Prop) (ranges : Nat → LrcuRange) : WorkerPc → Prop
  | .passing pass => inPass pass
  | .walkList _ rbt | .walkHlist _ rbt | .storeMin rbt => inTree rbt
  | _ => between ranges

theorem arrayIs_of_step {inPass : PassPc → Prop} {inTree : LrcuRangetree → Prop}
    {between : (Nat → LrcuRange) → Prop} {action : NamespaceAction}
    (begins : ∀ ranges, between ranges →
      inPass (.loadVersion (rangeBintreeInit ranges lrcuThreadsMax)))
    (moves : ∀ own pass middle pass', action = .pass .worker own → inPass pass →
      state.passOf .worker = some pass → PassMove state .worker pass own middle pass' →
        inPass pass')
    (ends : ∀ rbt, inPass (.finished rbt) → inTree rbt)
    (leaves : ∀ rbt, inTree rbt → between rbt.r)
    (holds : state.worker.ArrayIs inPass inTree between state.ranges)
    (stepped : namespaceStep state action = some next) :
    next.worker.ArrayIs inPass inTree between next.ranges := by
  cases own : action.byWorker with
  | false =>
      obtain ⟨worker, ranges⟩ := worker_of_foreign_step stepped own
      rwa [worker, ranges]
  | true =>
      cases action with
      | worker =>
          cases workerMove_of_step stepped with
          | startPass pc =>
              rw [pc] at holds
              exact begins state.ranges holds
          | endPass rbt pc =>
              rw [pc] at holds
              exact ends rbt holds
          | storeMin rbt pc =>
              rw [pc] at holds
              exact leaves rbt holds
          | skipFreeList pc | testFreeList pc | spliceFreeList pc | skipFreeHlist pc
          | testFreeHlist pc | spliceFreeHlist pc | skipPass pc | testProcessed pc
          | skipProcessed pc | writeBarrier pc | testEmpty pc | skipEmpty pc =>
              rw [pc] at holds
              exact holds
          | storeNext loaded pc | storeVersion loaded pc =>
              rw [pc] at holds
              exact holds
          | leaveList index rbt pc | keep index rbt pc | leaveHlist index rbt pc
          | keepHead index rbt pc =>
              rw [pc] at holds
              exact holds
          | destroy | destroyHead => exact holds
      | pass owner action =>
          obtain rfl : owner = .worker := by cases owner <;> simp_all [NamespaceAction.byWorker]
          obtain ⟨pass, middle, pass', found, move, rfl⟩ := passAction_cases stepped
          rw [passOf_worker.mp found] at holds
          exact moves action pass middle pass' rfl holds found move
      | reader | writer | call | enter | caller => simp [NamespaceAction.byWorker] at own

/-! ## Runs that go on -/

theorem version_le_add (infinite : InfiniteRun namespaceStep) (now : Nat) :
    (infinite.states now).version ≤ (infinite.states 0).version + now := by
  induction now with
  | zero => exact le_rfl
  | succ now ih => exact (version_le_succ_of_step (infinite.steps now)).trans (by omega)

/-- Version bumps, for ever. -/
def bumps (state : NamespaceState) : InfiniteRun namespaceStep where
  states now := { state with version := u64Succ^[now] state.version }
  actions _ := .writer .lrcuWriteBarrierNs
  steps now := by
    rw [Function.iterate_succ_apply']
    rfl

end LightRcu
