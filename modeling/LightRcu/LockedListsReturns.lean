import LightRcu.LockedListsPlaces
import LightRcu.SpinlockProgress
import Mathlib.Data.Prod.Lex

/-!
# Calls return

When every thread in a call or in a splice goes on some time, it gets its lock in
the order of the tickets, and whoever holds a lock comes to the end of its section.
So every call returns, and every splice ends.
-/

namespace LightRcu

open Execution

variable {Thread Addr : Type*} [DecidableEq Thread] [DecidableEq Addr]
  {state next : LockedLists Thread Addr} {workerThread : Thread}

/-! ## One lock -/

namespace LockedLists

/-- What a step of the thread does to a lock. -/
def lockAction (state : LockedLists Thread Addr) (workerThread t : Thread) (kind : CallKind) :
    Option (SpinAction Thread) :=
  match state.place workerThread t kind with
  | .outside | .inside => none
  | .locking =>
      some (if ((state.lock kind).thread t).pc = .idle then .lockXadd t else .lockSpin t)
  | .unlocking =>
      some (if ((state.lock kind).thread t).pc = .idle then .unlockLoad t else .unlockStore t)

end LockedLists

/-- What a step does to a lock. -/
def usesLock (workerThread : Thread) (kind : CallKind) (state : LockedLists Thread Addr) :
    LockedListsAction Thread Addr → Option (SpinAction Thread)
  | .call _ | .callHead .. | .malloc .. => none
  | .caller t => state.lockAction workerThread t kind
  | .worker _ => state.lockAction workerThread workerThread kind

theorem lrcuSpinLockStep_eq (lock : SpinState Thread) (t : Thread) :
    lrcuSpinLockStep lock t =
      spinStep lock (if (lock.thread t).pc = .idle then .lockXadd t else .lockSpin t) := by
  unfold lrcuSpinLockStep
  split_ifs <;> rfl

theorem lrcuSpinUnlockStep_eq (lock : SpinState Thread) (t : Thread) :
    lrcuSpinUnlockStep lock t =
      spinStep lock (if (lock.thread t).pc = .idle then .unlockLoad t else .unlockStore t) := by
  unfold lrcuSpinUnlockStep
  split_ifs <;> rfl

theorem usesLock_of_caller {t : Thread} (kind : CallKind)
    (outside : t = workerThread → ∀ kind, state.lists.worker ≠ .splice kind)
    (stepped : callerListsStep state t = some next) :
    resting spinStep (state.lock kind) (state.lockAction workerThread t kind) =
      some (next.lock kind) := by
  unfold LockedLists.lockAction
  rw [LockedLists.place_of_outside outside]
  cases pc : state.caller t with
  | idle | malloc => simp [callerListsStep, pc] at stepped
  | lockList =>
      simp only [callerListsStep, pc, Option.map_eq_some_iff] at stepped
      obtain ⟨lock, locked, rfl⟩ := stepped
      cases kind with
      | list =>
          rw [lrcuSpinLockStep_eq] at locked
          simpa [QueuePc.place, resting, LockedLists.setCaller, LockedLists.setLock] using locked
      | hlist => simp [QueuePc.place, resting, LockedLists.setCaller, LockedLists.setLock]
  | lockHlist e =>
      simp only [callerListsStep, pc, Option.map_eq_some_iff] at stepped
      obtain ⟨lock, locked, rfl⟩ := stepped
      cases kind with
      | hlist =>
          rw [lrcuSpinLockStep_eq] at locked
          simpa [QueuePc.place, resting, LockedLists.setCaller, LockedLists.setLock] using locked
      | list => simp [QueuePc.place, resting, LockedLists.setCaller, LockedLists.setLock]
  | unlock kind' =>
      simp only [callerListsStep, pc, Option.map_eq_some_iff] at stepped
      obtain ⟨lock, unlocked, rfl⟩ := stepped
      by_cases same : kind = kind'
      · subst same
        rw [lrcuSpinUnlockStep_eq] at unlocked
        simpa [QueuePc.place, resting, LockedLists.setCaller, LockedLists.setLock] using unlocked
      · simp [QueuePc.place, same, resting, LockedLists.setCaller, LockedLists.setLock]
  | clearNext | testEmpty | loadHead | storeNext | storeHead =>
      simp only [callerListsStep, pc, Option.some.injEq] at stepped
      subst stepped
      simp only [QueuePc.place]
      split_ifs <;> rfl

theorem usesLock_of_splice {kind : CallKind} (kind' : CallKind)
    (idle : state.caller workerThread = .idle) (its : state.lists.worker = .splice kind)
    (stepped : spliceStep state workerThread kind = some next) :
    resting spinStep (state.lock kind') (state.lockAction workerThread workerThread kind') =
      some (next.lock kind') := by
  have elsewhere : kind' ≠ kind → state.lockAction workerThread workerThread kind' = none := by
    intro distinct
    have other : state.lists.worker ≠ .splice kind' := by
      rw [its]
      exact fun equal => distinct (ListsPc.splice.inj equal).symm
    simp [LockedLists.lockAction, LockedLists.place, other, idle, QueuePc.place]
  have here : state.place workerThread workerThread kind = state.splice.place :=
    LockedLists.place_of_splice its
  unfold spliceStep at stepped
  cases at_ : state.splice with
  | lock =>
      simp only [at_, Option.map_eq_some_iff] at stepped
      obtain ⟨lock, locked, rfl⟩ := stepped
      by_cases same : kind' = kind
      · subst same
        rw [lrcuSpinLockStep_eq] at locked
        simpa [LockedLists.lockAction, here, at_, SplicePc.place, resting, LockedLists.setLock]
          using locked
      · simp [elsewhere same, resting, LockedLists.setLock, same]
  | unlock =>
      simp only [at_, Option.map_eq_some_iff] at stepped
      obtain ⟨lock, unlocked, rfl⟩ := stepped
      have changed : ∀ lists splice, (if (lock.thread workerThread).holds then
          state.setLock kind lock else { state.setLock kind lock with
            lists := lists, splice := splice }).lock = Function.update state.lock kind lock := by
        intro lists splice
        split_ifs <;> rfl
      rw [changed]
      by_cases same : kind' = kind
      · subst same
        rw [lrcuSpinUnlockStep_eq] at unlocked
        simpa [LockedLists.lockAction, here, at_, SplicePc.place, resting] using unlocked
      · simp [elsewhere same, resting, same]
  | storeTail ePrev first =>
      cases ePrev with
      | none => simp [at_] at stepped
      | some ePrev =>
          simp only [at_, Option.some.injEq] at stepped
          subst stepped
          by_cases same : kind' = kind
          · subst same
            simp [LockedLists.lockAction, here, at_, SplicePc.place, resting, LockedLists.setNext]
          · simp [elsewhere same, resting, LockedLists.setNext]
  | getTailLoop e ePrev first =>
      cases e with
      | none | some e =>
          simp only [at_, Option.some.injEq] at stepped
          subst stepped
          by_cases same : kind' = kind
          · subst same
            simp [LockedLists.lockAction, here, at_, SplicePc.place, resting]
          · simp [elsewhere same, resting]
  | testFree | testWorker | loadFree | storeWorker | loadFirst | getTail | clearFree =>
      simp only [at_, Option.some.injEq] at stepped
      subst stepped
      by_cases same : kind' = kind
      · subst same
        simp [LockedLists.lockAction, here, at_, SplicePc.place, resting]
      · simp [elsewhere same, resting]

/-- Every step uses a lock as `spinlock.c` does, or not at all. -/
theorem usesLock_of_step (ok : LockedListsOk workerThread state)
    {action : LockedListsAction Thread Addr} (kind : CallKind)
    (stepped : lockedListsStep workerThread state action = some next) :
    resting spinStep (state.lock kind) (usesLock workerThread kind state action) =
      some (next.lock kind) := by
  cases action with
  | call t =>
      simp only [lockedListsStep, Option.ite_none_right_eq_some, Option.some.injEq] at stepped
      obtain ⟨_, rfl⟩ := stepped
      rfl
  | callHead t e =>
      simp only [lockedListsStep, Option.ite_none_right_eq_some, Option.some.injEq] at stepped
      obtain ⟨_, rfl⟩ := stepped
      rfl
  | malloc t result =>
      simp only [lockedListsStep, Option.ite_none_right_eq_some] at stepped
      obtain ⟨_, stepped⟩ := stepped
      cases result with
      | none =>
          obtain rfl := Option.some.inj stepped
          rfl
      | some e =>
          simp only [Option.ite_none_right_eq_some, Option.some.injEq] at stepped
          obtain ⟨_, rfl⟩ := stepped
          rfl
  | caller t =>
      obtain ⟨coarse, related⟩ := ok.related
      apply usesLock_of_caller kind (related.locks.outside ?_) stepped
      intro pc
      simp [lockedListsStep, callerListsStep, pc] at stepped
  | worker held =>
      simp only [lockedListsStep, Option.ite_none_right_eq_some] at stepped
      obtain ⟨idle, stepped⟩ := stepped
      split at stepped
      next kind' its => exact usesLock_of_splice kind idle its stepped
      next plain =>
        obtain ⟨lists, _, rfl⟩ := Option.map_eq_some_iff.mp stepped
        have other : state.lists.worker ≠ .splice kind := plain kind
        have place : state.place workerThread workerThread kind = .outside := by
          simp [LockedLists.place, other, idle, QueuePc.place]
        simp [usesLock, LockedLists.lockAction, place, resting]

/-! ## Other threads -/

/-- The thread is in a call or in a splice. -/
def Busy (workerThread t : Thread) (state : LockedLists Thread Addr) : Prop :=
  state.caller t ≠ .idle ∨ t = workerThread ∧ ∃ kind, state.lists.worker = .splice kind

/-- A step that the thread takes in a call or in its rounds. -/
def OwnStep (workerThread t : Thread) : LockedListsAction Thread Addr → Prop
  | .call _ | .callHead .. => False
  | .malloc t' _ | .caller t' => t' = t
  | .worker _ => t = workerThread

theorem callerListsStep_frame {t : Thread} (stepped : callerListsStep state t = some next) :
    (∃ pc, next.caller = Function.update state.caller t pc) ∧
      next.lists.worker = state.lists.worker ∧ next.splice = state.splice ∧
        ∀ e, (state.caller t).node ≠ some e → next.lists.next e = state.lists.next e := by
  unfold callerListsStep at stepped
  cases pc : state.caller t with
  | idle | malloc => simp [pc] at stepped
  | lockList | lockHlist | unlock =>
      simp only [pc, Option.map_eq_some_iff] at stepped
      obtain ⟨lock, _, rfl⟩ := stepped
      exact ⟨⟨_, rfl⟩, rfl, rfl, fun _ _ => rfl⟩
  | testEmpty | loadHead | storeHead =>
      simp only [pc, Option.some.injEq] at stepped
      subst stepped
      exact ⟨⟨_, rfl⟩, rfl, rfl, fun _ _ => rfl⟩
  | clearNext | storeNext =>
      simp only [pc, Option.some.injEq] at stepped
      subst stepped
      refine ⟨⟨_, rfl⟩, rfl, rfl, fun e other => Function.update_of_ne ?_ _ _⟩
      rintro rfl
      exact other rfl

theorem caller_of_spliceStep {kind : CallKind}
    (stepped : spliceStep state workerThread kind = some next) : next.caller = state.caller := by
  unfold spliceStep at stepped
  cases at_ : state.splice with
  | lock =>
      simp only [at_, Option.map_eq_some_iff] at stepped
      obtain ⟨lock, _, rfl⟩ := stepped
      rfl
  | unlock =>
      simp only [at_, Option.map_eq_some_iff] at stepped
      obtain ⟨lock, _, rfl⟩ := stepped
      split_ifs <;> rfl
  | storeTail ePrev first =>
      cases ePrev with
      | none => simp [at_] at stepped
      | some ePrev =>
          simp only [at_, Option.some.injEq] at stepped
          exact stepped ▸ rfl
  | getTailLoop e ePrev first =>
      cases e with
      | none | some e =>
          simp only [at_, Option.some.injEq] at stepped
          exact stepped ▸ rfl
  | testFree | testWorker | loadFree | storeWorker | loadFirst | getTail | clearFree =>
      simp only [at_, Option.some.injEq] at stepped
      exact stepped ▸ rfl

theorem thread_of_lockAction {t other : Thread} {kind : CallKind} {lock : SpinState Thread}
    (used : resting spinStep (state.lock kind) (state.lockAction workerThread t kind) = some lock)
    (distinct : other ≠ t) : lock.thread other = (state.lock kind).thread other := by
  unfold LockedLists.lockAction at used
  split at used
  next => exact Option.some.inj used ▸ rfl
  next => exact Option.some.inj used ▸ rfl
  next =>
    split_ifs at used
    · exact thread_of_spinStep (Or.inl rfl) used distinct
    · exact thread_of_spinStep (Or.inr (Or.inl rfl)) used distinct
  next =>
    split_ifs at used
    · exact thread_of_spinStep (Or.inr (Or.inr (Or.inl rfl))) used distinct
    · exact thread_of_spinStep (Or.inr (Or.inr (Or.inr rfl))) used distinct

/-- A thread in a call or in a splice stays where it is while others move. -/
structure Stays (workerThread t : Thread) (state next : LockedLists Thread Addr) : Prop where
  caller : next.caller t = state.caller t
  worker : t = workerThread →
    next.lists.worker = state.lists.worker ∧ next.splice = state.splice
  memory : t = workerThread →
    ∀ e, state.inHand e = false → next.lists.next e = state.lists.next e
  thread : ∀ kind, (next.lock kind).thread t = (state.lock kind).thread t

omit [DecidableEq Thread] [DecidableEq Addr] in
theorem Stays.busy {t : Thread} (stays : Stays workerThread t state next)
    (busy : Busy workerThread t state) : Busy workerThread t next := by
  rcases busy with calls | ⟨same, kind, its⟩
  · left
    rwa [stays.caller]
  · exact Or.inr ⟨same, kind, (stays.worker same).1.trans its⟩

theorem Stays.place {t : Thread} (stays : Stays workerThread t state next) (kind : CallKind) :
    next.place workerThread t kind = state.place workerThread t kind := by
  unfold LockedLists.place
  by_cases same : t = workerThread
  · rw [stays.caller, (stays.worker same).1, (stays.worker same).2]
  · rw [stays.caller, if_neg fun its => same its.1, if_neg fun its => same its.1]

theorem stays_of_others (ok : LockedListsOk workerThread state) {t : Thread}
    {action : LockedListsAction Thread Addr} (busy : Busy workerThread t state)
    (others : ¬ OwnStep workerThread t action)
    (stepped : lockedListsStep workerThread state action = some next) :
    Stays workerThread t state next := by
  have used := fun kind => usesLock_of_step ok kind stepped
  have apart : ∀ {t'}, state.MayCall workerThread t' → t ≠ t' := by
    rintro t' may rfl
    rcases busy with calls | ⟨same, kind, its⟩
    · exact calls may.1
    · exact may.outside same kind its
  cases action with
  | call t' =>
      simp only [lockedListsStep, Option.ite_none_right_eq_some, Option.some.injEq] at stepped
      obtain ⟨may, rfl⟩ := stepped
      exact ⟨Function.update_of_ne (apart may) _ _, fun _ => ⟨rfl, rfl⟩, fun _ _ _ => rfl,
        fun _ => rfl⟩
  | callHead t' e =>
      simp only [lockedListsStep, Option.ite_none_right_eq_some, Option.some.injEq] at stepped
      obtain ⟨⟨may, _⟩, rfl⟩ := stepped
      exact ⟨Function.update_of_ne (apart may) _ _, fun _ => ⟨rfl, rfl⟩, fun _ _ _ => rfl,
        fun _ => rfl⟩
  | malloc t' result =>
      have distinct : t ≠ t' := fun same => others same.symm
      simp only [lockedListsStep, Option.ite_none_right_eq_some] at stepped
      obtain ⟨_, stepped⟩ := stepped
      cases result with
      | none =>
          obtain rfl := Option.some.inj stepped
          exact ⟨Function.update_of_ne distinct _ _, fun _ => ⟨rfl, rfl⟩, fun _ _ _ => rfl,
            fun _ => rfl⟩
      | some e =>
          simp only [Option.ite_none_right_eq_some, Option.some.injEq] at stepped
          obtain ⟨_, rfl⟩ := stepped
          exact ⟨Function.update_of_ne distinct _ _, fun _ => ⟨rfl, rfl⟩, fun _ _ _ => rfl,
            fun _ => rfl⟩
  | caller t' =>
      have distinct : t ≠ t' := fun same => others same.symm
      obtain ⟨coarse, related⟩ := ok.related
      obtain ⟨⟨pc, callers⟩, worker, splice, memory⟩ := callerListsStep_frame stepped
      refine ⟨?_, fun _ => ⟨worker, splice⟩, fun _ e off => memory e fun its => ?_,
        fun kind => thread_of_lockAction (used kind) distinct⟩
      · rw [callers, Function.update_of_ne distinct]
      · exact absurd ((related.callers.inHand t' e its).symm.trans off) (by simp)
  | worker held =>
      have callers : next.caller = state.caller := by
        simp only [lockedListsStep, Option.ite_none_right_eq_some] at stepped
        obtain ⟨_, stepped⟩ := stepped
        split at stepped
        next kind its => exact caller_of_spliceStep stepped
        next =>
          obtain ⟨lists, _, rfl⟩ := Option.map_eq_some_iff.mp stepped
          rfl
      exact ⟨by rw [callers], fun same => absurd same others, fun same => absurd same others,
        fun kind => thread_of_lockAction (used kind) others⟩

/-! ## The way to the end of a section -/

open Classical in
/-- The number of addresses that a walk visits, if it ends. -/
noncomputable def walkLength (next : Addr → Option Addr) (head : Option Addr) : Nat :=
  if ends : ∃ addrs, Chain next head addrs then ends.choose.length else 0

omit [DecidableEq Addr] in
theorem walkLength_eq {field : Addr → Option Addr} {head : Option Addr} {addrs : List Addr}
    (chain : Chain field head addrs) : walkLength field head = addrs.length := by
  have ends : ∃ addrs, Chain field head addrs := ⟨addrs, chain⟩
  rw [walkLength, dif_pos ends, ends.choose_spec.unique chain]

/-- How far a call is from the end of its section. -/
def QueuePc.rank (me : SpinThread) : QueuePc Addr → Nat
  | .idle | .lockList | .lockHlist _ => 0
  | .malloc => 8
  | .clearNext _ => 7
  | .testEmpty .. => 6
  | .loadHead .. => 5
  | .storeNext .. => 4
  | .storeHead .. => 3
  | .unlock _ => if me.pc = .idle then 2 else 1

/-- How far the worker is from the end of its section. -/
noncomputable def SplicePc.rank (me : SpinThread) (next : Addr → Option Addr) :
    SplicePc Addr → Nat ×ₗ Nat
  | .lock => toLex (0, 0)
  | .testFree => toLex (9, 0)
  | .testWorker => toLex (8, 0)
  | .loadFree | .loadFirst => toLex (7, 0)
  | .storeWorker _ | .getTail _ => toLex (6, 0)
  | .getTailLoop e .. => toLex (5, walkLength next e)
  | .storeTail .. => toLex (4, 0)
  | .clearFree => toLex (3, 0)
  | .unlock => toLex (if me.pc = .idle then 2 else 1, 0)

open Classical in
noncomputable def sectionRank (workerThread t : Thread) (kind : CallKind)
    (state : LockedLists Thread Addr) : Nat ×ₗ Nat :=
  if t = workerThread ∧ state.lists.worker = .splice kind then
    state.splice.rank ((state.lock kind).thread t) state.lists.next
  else toLex ((state.caller t).rank ((state.lock kind).thread t), 0)

omit [DecidableEq Thread] in
/-- The rest of the list that the worker walks. -/
theorem walk_off_hand {abstract : CallLists Addr} {kind : CallKind}
    (related : Related workerThread state abstract) (its : state.lists.worker = .splice kind)
    {e ePrev first : Option Addr} (at_ : state.splice = .getTailLoop e ePrev first) :
    ∃ addrs, Chain state.lists.next e addrs ∧ ∀ addr ∈ addrs, state.inHand addr = false := by
  have shows := related.worker
  unfold WorkerShows at shows
  rw [its, at_] at shows
  obtain ⟨⟨_, _, _, kept, rest, chain, rfl, _⟩, before⟩ := shows
  have off : ∀ addr ∈ rest, state.inHand addr = false := fun addr member =>
    related.not_inHand chain (List.mem_append_right _ member)
  obtain ⟨middle, _, behind⟩ := segment_append.mp chain
  have starts : middle = rest.head? := by
    rw [List.head?_eq_getElem?]
    exact Chain.head_eq behind
  refine ⟨rest, ?_, off⟩
  rw [← starts]
  exact Chain.congr behind fun addr member => before.2.next addr (off addr member)

/-- Others do not lengthen the way of a thread that holds a lock. -/
theorem sectionRank_of_others (ok : LockedListsOk workerThread state) {t : Thread}
    {kind : CallKind} {action : LockedListsAction Thread Addr} (busy : Busy workerThread t state)
    (others : ¬ OwnStep workerThread t action)
    (stepped : lockedListsStep workerThread state action = some next) :
    sectionRank workerThread t kind next = sectionRank workerThread t kind state := by
  have stays := stays_of_others ok busy others stepped
  unfold sectionRank
  by_cases its : t = workerThread ∧ state.lists.worker = .splice kind
  · obtain ⟨rfl, its⟩ := its
    obtain ⟨worker, splice⟩ := stays.worker rfl
    rw [if_pos ⟨rfl, worker.trans its⟩, if_pos ⟨rfl, its⟩, splice, stays.thread]
    obtain ⟨coarse, related⟩ := ok.related
    cases at_ : state.splice with
    | getTailLoop e ePrev first =>
        obtain ⟨addrs, chain, off⟩ := walk_off_hand related its at_
        have chain' : Chain next.lists.next e addrs :=
          chain.congr fun addr member => stays.memory rfl addr (off addr member)
        simp only [SplicePc.rank, walkLength_eq chain, walkLength_eq chain']
    | lock | testFree | testWorker | loadFree | loadFirst | storeWorker | getTail | storeTail
    | clearFree | unlock => rfl
  · have its' : ¬ (t = workerThread ∧ next.lists.worker = .splice kind) := by
      rintro ⟨rfl, its'⟩
      exact its ⟨rfl, (stays.worker rfl).1.symm.trans its'⟩
    rw [if_neg its, if_neg its', stays.caller, stays.thread]

/-- An access of `lrcu_spin_unlock` that does not let the lock go reads its
word. -/
theorem lrcuSpinUnlockStep_loads {lock lock' : SpinState Thread} {t : Thread}
    (fits : LockPlace.unlocking.Fits (lock.thread t))
    (stepped : lrcuSpinUnlockStep lock t = some lock') (held : (lock'.thread t).holds = true) :
    (lock.thread t).pc = .idle ∧ (lock'.thread t).pc ≠ .idle := by
  obtain ⟨holds, idle | ⟨ticket, unlocks⟩⟩ := fits
  · simp only [lrcuSpinUnlockStep, idle, spinStep, holds, and_self, if_true,
      Option.some.injEq] at stepped
    subst stepped
    exact ⟨idle, by simp⟩
  · simp only [lrcuSpinUnlockStep, unlocks, reduceCtorEq, if_false, spinStep,
      Option.some.injEq] at stepped
    subst stepped
    simp at held

theorem callerListsStep_lowers {t : Thread} {kind : CallKind}
    (fits : ((state.caller t).place kind).Fits ((state.lock kind).thread t))
    (held : ((state.lock kind).thread t).holds = true)
    (stepped : callerListsStep state t = some next)
    (held' : ((next.lock kind).thread t).holds = true) :
    (next.caller t).rank ((next.lock kind).thread t) <
      (state.caller t).rank ((state.lock kind).thread t) := by
  unfold callerListsStep at stepped
  cases pc : state.caller t with
  | idle | malloc => simp [pc] at stepped
  | lockList | lockHlist =>
      -- the thread holds the lock, so it does not wait for it
      simp only [pc, QueuePc.place] at fits
      split_ifs at fits
      · exact absurd (held.symm.trans fits.1) (by simp)
      · exact absurd (held.symm.trans fits.1) (by simp)
  | unlock kind' =>
      simp only [pc, Option.map_eq_some_iff] at stepped
      obtain ⟨lock, unlocked, rfl⟩ := stepped
      simp only [pc, QueuePc.place] at fits
      split_ifs at fits with same
      · subst same
        simp only [LockedLists.setCaller, LockedLists.setLock, Function.update_self] at held' ⊢
        obtain ⟨idle, loaded⟩ := lrcuSpinUnlockStep_loads fits unlocked held'
        simp [held', QueuePc.rank, idle, loaded]
      · exact absurd (held.symm.trans fits.1) (by simp)
  | testEmpty kind' e =>
      simp only [pc, Option.some.injEq] at stepped
      subst stepped
      simp only [LockedLists.setCaller, Function.update_self]
      split_ifs <;> simp [QueuePc.rank]
  | clearNext | loadHead | storeNext =>
      simp only [pc, Option.some.injEq] at stepped
      subst stepped
      simp [LockedLists.setCaller, QueuePc.rank]
  | storeHead =>
      simp only [pc, Option.some.injEq] at stepped
      subst stepped
      simp only [LockedLists.setCaller, Function.update_self, QueuePc.rank]
      by_cases idle : ((state.lock kind).thread t).pc = .idle <;> simp [idle]

theorem spliceStep_lowers {kind : CallKind} {abstract : CallLists Addr}
    (related : Related workerThread state abstract) (its : state.lists.worker = .splice kind)
    (fits : state.splice.place.Fits ((state.lock kind).thread workerThread))
    (held : ((state.lock kind).thread workerThread).holds = true)
    (stepped : spliceStep state workerThread kind = some next)
    (held' : ((next.lock kind).thread workerThread).holds = true) :
    next.lists.worker = .splice kind ∧
      next.splice.rank ((next.lock kind).thread workerThread) next.lists.next <
        state.splice.rank ((state.lock kind).thread workerThread) state.lists.next := by
  unfold spliceStep at stepped
  cases at_ : state.splice with
  | lock =>
      rw [at_] at fits
      exact absurd (held.symm.trans fits.1) (by simp)
  | unlock =>
      simp only [at_, Option.map_eq_some_iff] at stepped
      obtain ⟨lock, unlocked, rfl⟩ := stepped
      rw [at_] at fits
      split_ifs at held' ⊢ with holds
      · simp only [LockedLists.setLock, Function.update_self] at held' ⊢
        obtain ⟨idle, loaded⟩ := lrcuSpinUnlockStep_loads fits unlocked held'
        refine ⟨its, ?_⟩
        simp [at_, SplicePc.rank, idle, loaded, Prod.Lex.toLex_lt_toLex]
      · simp [LockedLists.setLock, holds] at held'
  | storeTail ePrev first =>
      cases ePrev with
      | none => simp [at_] at stepped
      | some ePrev =>
          simp only [at_, Option.some.injEq] at stepped
          subst stepped
          refine ⟨its, ?_⟩
          simp [SplicePc.rank, Prod.Lex.toLex_lt_toLex]
  | getTailLoop e ePrev first =>
      cases e with
      | none =>
          simp only [at_, Option.some.injEq] at stepped
          subst stepped
          refine ⟨its, ?_⟩
          simp [SplicePc.rank, Prod.Lex.toLex_lt_toLex]
      | some e =>
          obtain ⟨addrs, chain, _⟩ := walk_off_hand related its at_
          simp only [at_, Option.some.injEq] at stepped
          subst stepped
          refine ⟨its, ?_⟩
          cases addrs with
          | nil => exact absurd chain (by simp [Chain])
          | cons addr rest =>
              obtain ⟨same, behind⟩ := id chain
              obtain rfl := Option.some.inj same
              simp [SplicePc.rank, Prod.Lex.toLex_lt_toLex, walkLength_eq chain,
                walkLength_eq (show Chain state.lists.next (state.lists.next e) rest from behind)]
  | testFree =>
      simp only [at_, Option.some.injEq] at stepped
      subst stepped
      refine ⟨its, ?_⟩
      simp only
      split_ifs
      · simp only [SplicePc.rank, Prod.Lex.toLex_lt_toLex]
        split_ifs <;> simp
      · simp [SplicePc.rank, Prod.Lex.toLex_lt_toLex]
  | testWorker =>
      simp only [at_, Option.some.injEq] at stepped
      subst stepped
      refine ⟨its, ?_⟩
      simp only
      split_ifs <;> simp [SplicePc.rank, Prod.Lex.toLex_lt_toLex]
  | loadFree | storeWorker | loadFirst | getTail =>
      simp only [at_, Option.some.injEq] at stepped
      subst stepped
      refine ⟨its, ?_⟩
      simp [SplicePc.rank, Prod.Lex.toLex_lt_toLex]
  | clearFree =>
      simp only [at_, Option.some.injEq] at stepped
      subst stepped
      refine ⟨its, ?_⟩
      simp only [SplicePc.rank, Prod.Lex.toLex_lt_toLex]
      split_ifs <;> simp

theorem busy_of_fits (ok : LockedListsOk workerThread state) {t : Thread} {kind : CallKind}
    (there : ¬ LockPlace.outside.Fits ((state.lock kind).thread t)) :
    Busy workerThread t state := by
  by_contra free
  have idle : state.caller t = .idle := by
    by_contra calls
    exact free (Or.inl calls)
  have other : ¬ (t = workerThread ∧ state.lists.worker = .splice kind) :=
    fun its => free (Or.inr ⟨its.1, kind, its.2⟩)
  have fits := ok.places t kind
  rw [LockedLists.place, if_neg other, idle] at fits
  exact there fits

theorem busy_of_holds (ok : LockedListsOk workerThread state) {t : Thread} {kind : CallKind}
    (held : ((state.lock kind).thread t).holds = true) : Busy workerThread t state :=
  busy_of_fits ok fun fits => absurd (held.symm.trans fits.1) (by simp)

theorem place_of_busy {t : Thread} (busy : Busy workerThread t state) :
    ∃ kind, state.place workerThread t kind ≠ .outside := by
  by_cases splices : t = workerThread ∧ ∃ kind, state.lists.worker = .splice kind
  · obtain ⟨rfl, kind, its⟩ := splices
    refine ⟨kind, ?_⟩
    rw [LockedLists.place_of_splice its]
    cases state.splice <;> simp [SplicePc.place]
  · have calls := busy.resolve_right splices
    have outside : t = workerThread → ∀ kind, state.lists.worker ≠ .splice kind :=
      fun same kind its => splices ⟨same, kind, its⟩
    simp only [LockedLists.place_of_outside outside]
    cases pc : state.caller t with
    | idle => exact absurd pc calls
    | lockList | malloc | clearNext => exact ⟨.list, by simp [QueuePc.place]⟩
    | lockHlist => exact ⟨.hlist, by simp [QueuePc.place]⟩
    | testEmpty kind | loadHead kind | storeNext kind | storeHead kind | unlock kind =>
        exact ⟨kind, by simp [QueuePc.place]⟩

theorem sectionRank_lowers (ok : LockedListsOk workerThread state) {t : Thread} {kind : CallKind}
    {action : LockedListsAction Thread Addr}
    (held : ((state.lock kind).thread t).holds = true)
    (stepped : lockedListsStep workerThread state action = some next)
    (held' : ((next.lock kind).thread t).holds = true) :
    sectionRank workerThread t kind next ≤ sectionRank workerThread t kind state ∧
      (OwnStep workerThread t action →
        sectionRank workerThread t kind next < sectionRank workerThread t kind state) := by
  have busy := busy_of_holds ok held
  by_cases own : OwnStep workerThread t action
  swap
  · exact ⟨(sectionRank_of_others ok busy own stepped).le, fun own' => absurd own' own⟩
  suffices lower : sectionRank workerThread t kind next < sectionRank workerThread t kind state from
    ⟨lower.le, fun _ => lower⟩
  have fits := ok.places t kind
  obtain ⟨coarse, related⟩ := ok.related
  have ofCall : (t = workerThread → ∀ kind, state.lists.worker ≠ .splice kind) →
      next.lists.worker = state.lists.worker →
      (next.caller t).rank ((next.lock kind).thread t) <
        (state.caller t).rank ((state.lock kind).thread t) →
      sectionRank workerThread t kind next < sectionRank workerThread t kind state := by
    intro outside worker lower
    unfold sectionRank
    rw [if_neg fun its => outside its.1 kind (worker.symm.trans its.2),
      if_neg fun its => outside its.1 kind its.2, Prod.Lex.toLex_lt_toLex]
    exact Or.inl lower
  cases action with
  | call | callHead => exact absurd own id
  | caller t' =>
      obtain rfl : t' = t := own
      have outside : t' = workerThread → ∀ kind, state.lists.worker ≠ .splice kind := by
        apply related.locks.outside
        intro pc
        simp [lockedListsStep, callerListsStep, pc] at stepped
      rw [LockedLists.place_of_outside outside] at fits
      exact ofCall outside (callerListsStep_frame stepped).2.1
        (callerListsStep_lowers fits held stepped held')
  | malloc t' result =>
      obtain rfl : t' = t := own
      simp only [lockedListsStep, Option.ite_none_right_eq_some] at stepped
      obtain ⟨pc, stepped⟩ := stepped
      have outside := related.locks.outside (t := t') (by simp [pc])
      cases result with
      | none =>
          obtain rfl := Option.some.inj stepped
          apply ofCall outside rfl
          simp only [LockedLists.setCaller, Function.update_self, pc, QueuePc.rank]
          by_cases rests : ((state.lock kind).thread t').pc = .idle <;> simp [rests]
      | some e =>
          simp only [Option.ite_none_right_eq_some, Option.some.injEq] at stepped
          obtain ⟨_, rfl⟩ := stepped
          apply ofCall outside rfl
          simp [LockedLists.setCaller, pc, QueuePc.rank]
  | worker answer =>
      obtain rfl : t = workerThread := own
      simp only [lockedListsStep, Option.ite_none_right_eq_some] at stepped
      obtain ⟨idle, stepped⟩ := stepped
      -- the worker holds the lock of the list that it splices
      have its : state.lists.worker = .splice kind := by
        by_contra other
        have rests := ok.places.rests idle other
        exact absurd (held.symm.trans rests.1) (by simp)
      rw [its] at stepped
      rw [LockedLists.place_of_splice its] at fits
      obtain ⟨its', lower⟩ := spliceStep_lowers related its fits held stepped held'
      unfold sectionRank
      rwa [if_pos ⟨rfl, its'⟩, if_pos ⟨rfl, its⟩]

theorem holds_of_spinStep {lock lock' : SpinState Thread} {t : Thread}
    {action : SpinAction Thread} (held : (lock.thread t).holds = true)
    (others : action ≠ .unlockStore t) (stepped : spinStep lock action = some lock') :
    (lock'.thread t).holds = true := by
  have kept : ∀ {t' me}, (t = t' → me.holds = true) →
      (Function.update lock.thread t' me t).holds = true := by
    intro t' me same
    by_cases here : t = t'
    · subst here
      rw [Function.update_self]
      exact same rfl
    · rwa [Function.update_of_ne here]
  cases action with
  | lockXadd t' | trylockLoad t' | unlockLoad t' =>
      simp only [spinStep, Option.ite_none_right_eq_some, Option.some.injEq] at stepped
      obtain ⟨_, rfl⟩ := stepped
      exact kept fun same => same ▸ held
  | lockSpin t' =>
      simp only [spinStep] at stepped
      split at stepped
      next =>
        split_ifs at stepped
        · obtain rfl := Option.some.inj stepped
          exact kept fun _ => rfl
        · obtain rfl := Option.some.inj stepped
          exact held
      next => simp at stepped
  | trylockCmpxchg t' =>
      simp only [spinStep] at stepped
      split at stepped
      next =>
        split_ifs at stepped
        · obtain rfl := Option.some.inj stepped
          exact kept fun _ => rfl
        · obtain rfl := Option.some.inj stepped
          exact kept fun same => same ▸ held
      next => simp at stepped
  | unlockStore t' =>
      simp only [spinStep] at stepped
      split at stepped
      next =>
        obtain rfl := Option.some.inj stepped
        exact kept fun same => absurd (by rw [same]) others
      next => simp at stepped

/-! ## The end of a section -/

theorem lockXadd_spins {lock lock' : SpinState Thread} {t : Thread}
    (stepped : spinStep lock (.lockXadd t) = some lock') :
    ∃ me, (lock'.thread t).pc = .spinning me := by
  simp only [spinStep, Option.ite_none_right_eq_some, Option.some.injEq] at stepped
  obtain ⟨_, rfl⟩ := stepped
  exact ⟨lock.word.users, by simp [lrcuAtomicXaddUsers]⟩

/-- The second access of `lrcu_spin_unlock` lets the lock go. -/
theorem lrcuSpinUnlockStep_stores {lock lock' : SpinState Thread} {t : Thread}
    (fits : LockPlace.unlocking.Fits (lock.thread t)) (loaded : (lock.thread t).pc ≠ .idle)
    (stepped : lrcuSpinUnlockStep lock t = some lock') : (lock'.thread t).holds = false := by
  obtain ⟨_, idle | ⟨ticket, unlocks⟩⟩ := fits
  · exact absurd idle loaded
  · simp only [lrcuSpinUnlockStep, unlocks, reduceCtorEq, if_false, spinStep,
      Option.some.injEq] at stepped
    subst stepped
    simp

theorem unlocking_of_lockAction {t t' : Thread} {kind : CallKind}
    (used : state.lockAction workerThread t' kind = some (.unlockStore t)) :
    t' = t ∧ state.place workerThread t kind = .unlocking ∧
      ((state.lock kind).thread t).pc ≠ .idle := by
  unfold LockedLists.lockAction at used
  cases place : state.place workerThread t' kind with
  | outside | inside => simp [place] at used
  | locking =>
      simp only [place] at used
      split_ifs at used <;> simp at used
  | unlocking =>
      simp only [place] at used
      split_ifs at used with loaded
      · simp at used
      · obtain rfl := SpinAction.unlockStore.inj (Option.some.inj used)
        exact ⟨rfl, place, loaded⟩

omit [DecidableEq Addr] in
theorem QueuePc.unlock_of_place {pc : QueuePc Addr} {kind : CallKind}
    (place : pc.place kind = .unlocking) : pc = .unlock kind := by
  cases pc with
  | idle => simp [QueuePc.place] at place
  | unlock kind' =>
      simp only [QueuePc.place] at place
      split_ifs at place with same
      rw [same]
  | lockList | lockHlist | malloc | clearNext | testEmpty | loadHead | storeNext | storeHead =>
      simp only [QueuePc.place] at place
      split_ifs at place

omit [DecidableEq Addr] in
theorem SplicePc.unlock_of_place {pc : SplicePc Addr} (place : pc.place = .unlocking) :
    pc = .unlock := by
  cases pc with
  | unlock => rfl
  | lock | testFree | testWorker | loadFree | storeWorker | loadFirst | getTail | getTailLoop
  | storeTail | clearFree => simp [SplicePc.place] at place

/-- A thread that has let its lock go is out of its call or splice. -/
theorem not_busy_of_unlockStore (ok : LockedListsOk workerThread state) {t : Thread}
    {kind : CallKind} {action : LockedListsAction Thread Addr}
    (stepped : lockedListsStep workerThread state action = some next)
    (used : usesLock workerThread kind state action = some (.unlockStore t)) :
    ¬ Busy workerThread t next := by
  have fits := ok.places t kind
  obtain ⟨coarse, related⟩ := ok.related
  cases action with
  | call | callHead | malloc => simp [usesLock] at used
  | caller t' =>
      obtain ⟨rfl, place, loaded⟩ := unlocking_of_lockAction used
      have outside : t' = workerThread → ∀ kind, state.lists.worker ≠ .splice kind := by
        apply related.locks.outside
        intro pc
        simp [lockedListsStep, callerListsStep, pc] at stepped
      rw [place] at fits
      rw [LockedLists.place_of_outside outside] at place
      have pc := QueuePc.unlock_of_place place
      have worker := (callerListsStep_frame stepped).2.1
      simp only [lockedListsStep, callerListsStep, pc, Option.map_eq_some_iff] at stepped
      obtain ⟨lock, unlocked, rfl⟩ := stepped
      have free := lrcuSpinUnlockStep_stores fits loaded unlocked
      rintro (calls | ⟨same, kind', its⟩)
      · simp [LockedLists.setCaller, free] at calls
      · exact outside same kind' (worker.symm.trans its)
  | worker answer =>
      obtain ⟨rfl, place, loaded⟩ := unlocking_of_lockAction used
      simp only [lockedListsStep, Option.ite_none_right_eq_some] at stepped
      obtain ⟨idle, stepped⟩ := stepped
      have its : state.lists.worker = .splice kind := by
        by_contra other
        simp [LockedLists.place, other, idle, QueuePc.place] at place
      rw [place] at fits
      rw [LockedLists.place_of_splice its] at place
      have at_ := SplicePc.unlock_of_place place
      simp only [its, spliceStep, at_, Option.map_eq_some_iff] at stepped
      obtain ⟨lock, unlocked, rfl⟩ := stepped
      have free := lrcuSpinUnlockStep_stores fits loaded unlocked
      rw [if_neg (by simp [free])]
      rintro (calls | ⟨_, kind', its'⟩)
      · exact calls idle
      · cases kind <;> simp [ListsPc.afterSplice] at its'

/-! ## Infinite runs -/

section Returns

variable {infinite : InfiniteRun (@lockedListsStep Thread Addr _ _ workerThread)}
  (ok : ∀ now, LockedListsOk workerThread (infinite.states now))

/-- What the run does to a lock. -/
def lockRun (kind : CallKind) : InfiniteRun (resting (@spinStep Thread _)) where
  states now := (infinite.states now).lock kind
  actions now := usesLock workerThread kind (infinite.states now) (infinite.actions now)
  steps now := usesLock_of_step (ok now) kind (infinite.steps now)

variable (fair : ∀ t, infinite.WeaklyFair (Busy workerThread t) (OwnStep workerThread t))
include ok fair

theorem own_step_comes {t : Thread} {start : Nat}
    (busy : Busy workerThread t (infinite.states start)) :
    ∃ wait, OwnStep workerThread t (infinite.actions (start + wait)) := by
  by_contra never
  push Not at never
  have stays : ∀ wait, Busy workerThread t (infinite.states (start + wait)) := by
    intro wait
    induction wait with
    | zero => exact busy
    | succ wait ih =>
        exact (stays_of_others (ok _) ih (never wait) (infinite.steps _)).busy ih
  obtain ⟨wait, own⟩ := fair t start fun now le => by
    obtain ⟨wait, rfl⟩ := Nat.exists_eq_add_of_le le
    exact stays wait
  exact never wait own

theorem next_own_step {t : Thread} {start : Nat}
    (busy : Busy workerThread t (infinite.states start)) (kind : CallKind) :
    ∃ later, start ≤ later ∧ OwnStep workerThread t (infinite.actions later) ∧
      (infinite.states later).place workerThread t kind =
        (infinite.states start).place workerThread t kind ∧
      ((infinite.states later).lock kind).thread t =
        ((infinite.states start).lock kind).thread t := by
  obtain ⟨wait, own⟩ := own_step_comes ok fair busy
  let same : LockedLists Thread Addr → Prop := fun state => Busy workerThread t state ∧
    state.place workerThread t kind = (infinite.states start).place workerThread t kind ∧
      (state.lock kind).thread t = ((infinite.states start).lock kind).thread t
  have stays : ∀ now, same (infinite.states now) →
      ¬ OwnStep workerThread t (infinite.actions now) → same (infinite.states (now + 1)) := by
    rintro now ⟨busy, place, thread⟩ others
    have stays := stays_of_others (ok now) busy others (infinite.steps now)
    exact ⟨stays.busy busy, (stays.place kind).trans place, (stays.thread kind).trans thread⟩
  have begins : same (infinite.states start) := ⟨busy, rfl, rfl⟩
  obtain ⟨later, le, ⟨_, place, thread⟩, own⟩ :=
    InfiniteRun.holds_until (OwnStep workerThread t) same stays begins own
  exact ⟨later, le, own, place, thread⟩

omit fair in
/-- What the lock sees of a step of a thread that waits for it. -/
theorem lockRun_of_own {t : Thread} {now : Nat} {kind : CallKind}
    (own : OwnStep workerThread t (infinite.actions now))
    (waits : (infinite.states now).place workerThread t kind = .locking) :
    (lockRun ok kind).actions now = (infinite.states now).lockAction workerThread t kind := by
  have stepped := infinite.steps now
  simp only [lockRun]
  cases action : infinite.actions now with
  | call | callHead =>
      rw [action] at own
      exact absurd own id
  | caller t' =>
      rw [action] at own
      obtain rfl : t' = t := own
      rfl
  | worker answer =>
      rw [action] at own
      obtain rfl : t = workerThread := own
      rfl
  | malloc t' result =>
      -- the thread has the lock already
      rw [action] at own stepped
      obtain rfl : t' = t := own
      simp only [lockedListsStep, Option.ite_none_right_eq_some] at stepped
      obtain ⟨pc, _⟩ := stepped
      obtain ⟨coarse, related⟩ := (ok now).related
      have outside := related.locks.outside (t := t') (by simp [pc])
      rw [LockedLists.place_of_outside outside, pc] at waits
      simp only [QueuePc.place] at waits
      split_ifs at waits

omit fair in
theorem locking_of_spinning {kind : CallKind} {t : Thread} {now : Nat} {me : BitVec 16}
    (waits : (((infinite.states now).lock kind).thread t).pc = .spinning me) :
    (infinite.states now).place workerThread t kind = .locking := by
  have fits := (ok now).places t kind
  cases place : (infinite.states now).place workerThread t kind with
  | locking => rfl
  | outside | inside =>
      rw [place] at fits
      exact absurd (waits.symm.trans fits.2) (by simp)
  | unlocking =>
      rw [place] at fits
      obtain ⟨_, idle | ⟨ticket, unlocks⟩⟩ := fits
      · exact absurd (waits.symm.trans idle) (by simp)
      · exact absurd (waits.symm.trans unlocks) (by simp)

theorem lockRun_spins (kind : CallKind) (t : Thread) (now : Nat) (me : BitVec 16)
    (waits : (((lockRun ok kind).states now).thread t).pc = .spinning me) :
    ∃ wait, (lockRun ok kind).actions (now + wait) = some (.lockSpin t) := by
  have place := locking_of_spinning ok waits
  have there : ¬ LockPlace.outside.Fits (((infinite.states now).lock kind).thread t) :=
    fun fits => absurd (waits.symm.trans fits.2) (by simp)
  have busy := busy_of_fits (ok now) there
  obtain ⟨later, le, own, place', thread⟩ := next_own_step ok fair busy kind
  obtain ⟨wait, rfl⟩ := Nat.exists_eq_add_of_le le
  refine ⟨wait, ?_⟩
  have spins : (((infinite.states (now + wait)).lock kind).thread t).pc = .spinning me := by
    rw [thread]
    exact waits
  rw [lockRun_of_own ok own (place'.trans place), LockedLists.lockAction, place'.trans place]
  simp [spins]

theorem lockRun_releases (kind : CallKind) (t : Thread) (now : Nat)
    (held : (((lockRun ok kind).states now).thread t).holds = true) :
    ∃ wait, (lockRun ok kind).actions (now + wait) = some (.unlockStore t) := by
  have moves : ∀ (state : LockedLists Thread Addr) action next, LockedListsOk workerThread state →
      ((state.lock kind).thread t).holds = true →
      lockedListsStep workerThread state action = some next →
        ((next.lock kind).thread t).holds = false ∨
          ((next.lock kind).thread t).holds = true ∧
            sectionRank workerThread t kind next ≤ sectionRank workerThread t kind state ∧
              (OwnStep workerThread t action →
                sectionRank workerThread t kind next < sectionRank workerThread t kind state) := by
    intro state action next ok held stepped
    by_cases held' : ((next.lock kind).thread t).holds = true
    · exact Or.inr ⟨held', sectionRank_lowers ok held stepped held'⟩
    · exact Or.inl (by simpa using held')
  have recurs : infinite.RecursUntil now (fun state => ((state.lock kind).thread t).holds = false)
      (OwnStep workerThread t) := by
    intro later _ holds
    exact own_step_comes ok fair (busy_of_holds (ok later) (by simpa using holds))
  have meets : infinite.MeetsFrom now (fun state _ => LockedListsOk workerThread state) :=
    fun later _ => ok later
  obtain ⟨later, le, free⟩ := InfiniteRun.reaches
    (fun state : LockedLists Thread Addr => ((state.lock kind).thread t).holds = false)
    (fun state => ((state.lock kind).thread t).holds = true)
    (sectionRank workerThread t kind) moves recurs meets held
  by_contra never
  push Not at never
  have holds : ∀ wait, (((lockRun ok kind).states (now + wait)).thread t).holds = true := by
    intro wait
    induction wait with
    | zero => exact held
    | succ wait ih =>
        rcases (lockRun ok kind).rests_or_steps (now + wait) with same | ⟨action, taken, stepped⟩
        · rw [← Nat.add_assoc, same]
          exact ih
        · apply holds_of_spinStep ih ?_ stepped
          rintro rfl
          exact never wait taken
  obtain ⟨wait, rfl⟩ := Nat.exists_eq_add_of_le le
  exact absurd ((holds wait).symm.trans free) (by simp)

theorem returns_of_holds {kind : CallKind} {t : Thread} {now : Nat}
    (held : (((infinite.states now).lock kind).thread t).holds = true) :
    ∃ later, now ≤ later ∧ ¬ Busy workerThread t (infinite.states later) := by
  obtain ⟨wait, lets⟩ := lockRun_releases ok fair kind t now held
  exact ⟨now + wait + 1, by omega,
    not_busy_of_unlockStore (ok (now + wait)) (infinite.steps (now + wait)) lets⟩

theorem returns_of_spinning {kind : CallKind} {t : Thread} {now : Nat} {me : BitVec 16}
    (waits : (((infinite.states now).lock kind).thread t).pc = .spinning me) :
    ∃ later, now ≤ later ∧ ¬ Busy workerThread t (infinite.states later) := by
  have invariants : ∀ now, SpinInvariant ((lockRun ok kind).states now) := by
    intro now
    obtain ⟨coarse, related⟩ := (ok now).related
    exact related.locks.spin kind
  obtain ⟨number, ahead, owned, _⟩ := (invariants now).spinning t me waits
  obtain ⟨served, le, held, _⟩ := ticket_served invariants (lockRun_spins ok fair kind)
    (lockRun_releases ok fair kind) owned ahead
  obtain ⟨later, le', returned⟩ := returns_of_holds ok fair held
  exact ⟨later, le.trans le', returned⟩

theorem returns_of_locking {kind : CallKind} {t : Thread} {now : Nat}
    (busy : Busy workerThread t (infinite.states now))
    (place : (infinite.states now).place workerThread t kind = .locking) :
    ∃ later, now ≤ later ∧ ¬ Busy workerThread t (infinite.states later) := by
  have fits := (ok now).places t kind
  rw [place] at fits
  obtain ⟨free, idle | ⟨ticket, spins⟩⟩ := fits
  · obtain ⟨drawn, le, own, place', thread⟩ := next_own_step ok fair busy kind
    have draws := lockRun_of_own ok own (place'.trans place)
    rw [LockedLists.lockAction, place'.trans place, thread] at draws
    simp only [idle, if_true] at draws
    obtain ⟨me, spins⟩ : ∃ me,
        (((infinite.states (drawn + 1)).lock kind).thread t).pc = .spinning me := by
      have stepped := (lockRun ok kind).steps drawn
      rw [draws] at stepped
      exact lockXadd_spins stepped
    obtain ⟨later, le', returned⟩ := returns_of_spinning ok fair spins
    exact ⟨later, by omega, returned⟩
  · exact returns_of_spinning ok fair spins

end Returns

/-- Every call returns, and every splice ends. -/
theorem lockedLists_return
    {infinite : InfiniteRun (@lockedListsStep Thread Addr _ _ workerThread)}
    (begins : infinite.states 0 = lockedListsInit Thread Addr)
    (few : ∀ now, FewContend 65535 (infinite.states now))
    (fair : ∀ t, infinite.WeaklyFair (Busy workerThread t) (OwnStep workerThread t))
    (t : Thread) (now : Nat) :
    ∃ later, now ≤ later ∧ (infinite.states later).caller t = .idle ∧
      (t = workerThread → ∀ kind, (infinite.states later).lists.worker ≠ .splice kind) := by
  have ok : ∀ now, LockedListsOk workerThread (infinite.states now) := by
    intro now
    induction now with
    | zero => exact begins ▸ LockedListsOk.init
    | succ now ih => exact ih.step (few (now + 1)) (infinite.steps now)
  suffices returned : ∃ later, now ≤ later ∧ ¬ Busy workerThread t (infinite.states later) by
    obtain ⟨later, le, free⟩ := returned
    refine ⟨later, le, ?_, fun same kind its => free (Or.inr ⟨same, kind, its⟩)⟩
    by_contra calls
    exact free (Or.inl calls)
  by_cases busy : Busy workerThread t (infinite.states now)
  · obtain ⟨kind, there⟩ := place_of_busy busy
    have fits := (ok now).places t kind
    cases place : (infinite.states now).place workerThread t kind with
    | outside => exact absurd place there
    | locking => exact returns_of_locking ok fair busy place
    | inside | unlocking =>
        rw [place] at fits
        exact returns_of_holds ok fair fits.1
  · exact ⟨now, le_rfl, busy⟩

/-- There is nothing to do but for the worker to look for callbacks. -/
def NothingQueued (state : LockedLists (Fin 3) (Fin 2)) : Prop :=
  (∀ t, state.caller t = .idle) ∧ (∀ kind, state.lists.freeList kind = none) ∧
    (∀ kind, state.lists.workerList kind = none) ∧
      (state.lists.worker = .testFree .list ∨ state.lists.worker = .testFree .hlist ∨
        state.lists.worker = .testWorker)

theorem NothingQueued.step {state : LockedLists (Fin 3) (Fin 2)}
    (nothing : NothingQueued state) :
    ∃ next, lockedListsStep 2 state (.worker false) = some next ∧ NothingQueued next := by
  obtain ⟨callers, free, list, pc | pc | pc⟩ := nothing
  · refine ⟨{ state with lists := { state.lists with worker := .testFree .hlist } }, ?_,
      callers, free, list, Or.inr (Or.inl rfl)⟩
    simp [lockedListsStep, workerListsStep, callers, free, pc]
  · refine ⟨{ state with lists := { state.lists with worker := .testWorker } }, ?_,
      callers, free, list, Or.inr (Or.inr rfl)⟩
    simp [lockedListsStep, workerListsStep, callers, free, pc]
  · refine ⟨{ state with lists := { state.lists with worker := .testFree .list } }, ?_,
      callers, free, list, Or.inl rfl⟩
    simp [lockedListsStep, workerListsStep, callers, list, pc]

theorem NothingQueued.not_busy {state : LockedLists (Fin 3) (Fin 2)}
    (nothing : NothingQueued state) (t : Fin 3) : ¬ Busy 2 t state := by
  obtain ⟨callers, _, _, pc⟩ := nothing
  rintro (calls | ⟨_, kind, its⟩)
  · exact calls (callers t)
  · simp [its] at pc

theorem lockedLists_return_contended :
    ∃ infinite : InfiniteRun (@lockedListsStep (Fin 3) (Fin 2) _ _ 2),
      infinite.states 0 = lockedListsInit (Fin 3) (Fin 2) ∧
        (infinite.states 14).caller 1 = .lockList ∧
          ∃ later, 14 ≤ later ∧ (infinite.states later).caller 1 = .idle := by
  obtain ⟨waiting, final, waited, ran, waits, nothing⟩ : ∃ waiting final,
      run (lockedListsStep 2) (lockedListsInit (Fin 3) (Fin 2))
        ((contendedSplice 0 1 0 1).take 14) = some waiting ∧
      run (lockedListsStep 2) waiting
        ((contendedSplice 0 1 0 1).drop 14 ++ List.replicate 14 (.worker false)) = some final ∧
      waiting.caller 1 = .lockList ∧ NothingQueued final := by
    refine ⟨_, _, rfl, rfl, rfl, ?_, ?_, ?_, Or.inl rfl⟩
    · decide
    · rintro (_ | _) <;> rfl
    · rintro (_ | _) <;> rfl
  obtain ⟨rounds, begins, _, stays⟩ := @InfiniteRun.exists_of_schedule _ _ (lockedListsStep 2)
    (fun _ => .worker false) (fun _ => NothingQueued) (fun _ _ nothing => nothing.step) final
    nothing
  obtain ⟨behind, follows, _, later⟩ := rounds.exists_append (begins ▸ ran)
  obtain ⟨infinite, starts, _, there⟩ := behind.exists_append (follows ▸ waited)
  have now : (infinite.states 14).caller 1 = .lockList := by
    rw [show infinite.states 14 = behind.states 0 from (there 0).1, follows]
    exact waits
  have fair : ∀ t, infinite.WeaklyFair (Busy 2 t) (OwnStep 2 t) := by
    intro t start busy
    have quiet : infinite.states (14 + (33 + start)) = rounds.states start :=
      (there (33 + start)).1.trans (later start).1
    have late := busy (14 + (33 + start)) (by omega)
    rw [quiet] at late
    exact absurd late ((stays start).not_busy t)
  obtain ⟨returned, le, idle, _⟩ := lockedLists_return starts
    (fun _ => fewContend_of_card (by decide) _) fair 1 14
  exact ⟨infinite, starts, now, returned, le, idle⟩

end LightRcu
