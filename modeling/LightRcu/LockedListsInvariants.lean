import LightRcu.LockedLists
import LightRcu.SpinlockSafety

/-!
# Invariants of the sections under the list locks

As long as fewer than `2^16` threads contend for a lock, whoever is in one of its
sections holds it, so that there is one at most.  Nodes in hand belong to one call
each and are on no list.
-/

namespace LightRcu

open Execution

variable {Thread Addr : Type*} [DecidableEq Thread] [DecidableEq Addr]
  {state next : LockedLists Thread Addr} {workerThread : Thread}

/-! ## The locks -/

omit [DecidableEq Thread] [DecidableEq Addr] in
theorem LockedLists.MayCall.outside {t : Thread} (may : state.MayCall workerThread t) :
    t = workerThread → ∀ kind, state.lists.worker ≠ .splice kind := by
  intro same kind its
  have inside := may.2 same
  simp [its, ListsPc.inDestructor] at inside

theorem thread_of_spinStep {lock lock' : SpinState Thread} {t other : Thread}
    {action : SpinAction Thread}
    (own : action = .lockXadd t ∨ action = .lockSpin t ∨ action = .unlockLoad t ∨
      action = .unlockStore t)
    (stepped : spinStep lock action = some lock') (distinct : other ≠ t) :
    lock'.thread other = lock.thread other := by
  rcases own with rfl | rfl | rfl | rfl
  · simp only [spinStep, Option.ite_none_right_eq_some, Option.some.injEq] at stepped
    obtain ⟨_, rfl⟩ := stepped
    exact Function.update_of_ne distinct _ _
  · simp only [spinStep] at stepped
    split at stepped
    next =>
      split_ifs at stepped
      · obtain rfl := Option.some.inj stepped
        exact Function.update_of_ne distinct _ _
      · exact Option.some.inj stepped ▸ rfl
    next => simp at stepped
  · simp only [spinStep, Option.ite_none_right_eq_some, Option.some.injEq] at stepped
    obtain ⟨_, rfl⟩ := stepped
    exact Function.update_of_ne distinct _ _
  · simp only [spinStep] at stepped
    split at stepped
    next =>
      obtain rfl := Option.some.inj stepped
      exact Function.update_of_ne distinct _ _
    next => simp at stepped

omit [DecidableEq Thread] [DecidableEq Addr] in
theorem fewContend_of_card [Fintype Thread] {limit : Nat} (card : Fintype.card Thread ≤ limit)
    (state : LockedLists Thread Addr) : FewContend limit state :=
  fun _ _ distinct _ => distinct.length_le_card.trans card

/-- One access to the lock word by a thread. -/
def LockAccess (t : Thread) (lock lock' : SpinState Thread) : Prop :=
  lrcuSpinLockStep lock t = some lock' ∨ lrcuSpinUnlockStep lock t = some lock'

namespace LockAccess

variable {lock lock' : SpinState Thread} {t : Thread}

theorem thread (access : LockAccess t lock lock') {other : Thread} (distinct : other ≠ t) :
    lock'.thread other = lock.thread other := by
  rcases access with stepped | stepped
  · unfold lrcuSpinLockStep at stepped
    split_ifs at stepped
    · exact thread_of_spinStep (Or.inl rfl) stepped distinct
    · exact thread_of_spinStep (Or.inr (Or.inl rfl)) stepped distinct
  · unfold lrcuSpinUnlockStep at stepped
    split_ifs at stepped
    · exact thread_of_spinStep (Or.inr (Or.inr (Or.inl rfl))) stepped distinct
    · exact thread_of_spinStep (Or.inr (Or.inr (Or.inr rfl))) stepped distinct

theorem spinInvariant (access : LockAccess t lock lock') (invariant : SpinInvariant lock)
    (few : AtMostContend 65535 lock') : SpinInvariant lock' := by
  rcases access with stepped | stepped
  · unfold lrcuSpinLockStep at stepped
    split_ifs at stepped
    · exact invariant.step_preserves few stepped
    · exact invariant.step_preserves few stepped
  · unfold lrcuSpinUnlockStep at stepped
    split_ifs at stepped
    · exact invariant.step_preserves few stepped
    · exact invariant.step_preserves few stepped

end LockAccess

namespace QueuePc

omit [DecidableEq Addr] in
/-- The node that a call has in hand. -/
def node : QueuePc Addr → Option Addr
  | .lockHlist e | .clearNext e | .testEmpty _ e | .loadHead _ e | .storeNext _ e _
  | .storeHead _ e => some e
  | .idle | .lockList | .malloc | .unlock _ => none

/-- The list whose lock a call holds. -/
def locked : QueuePc Addr → Option CallKind
  | .idle | .lockList | .lockHlist _ => none
  | .malloc | .clearNext _ => some .list
  | .testEmpty kind _ | .loadHead kind _ | .storeNext kind _ _ | .storeHead kind _
  | .unlock kind => some kind

omit [DecidableEq Addr] in
/-- The call has read the head of the list. -/
def Storing : QueuePc Addr → Prop
  | .storeNext .. | .storeHead .. => True
  | .idle | .lockList | .lockHlist _ | .malloc | .clearNext _ | .testEmpty .. | .loadHead ..
  | .unlock _ => False

end QueuePc

/-- Who is in a section holds its lock. -/
structure LocksOk (workerThread : Thread) (state : LockedLists Thread Addr) : Prop where
  spin : ∀ kind, SpinInvariant (state.lock kind)
  caller : ∀ t kind, (state.caller t).locked = some kind →
    ((state.lock kind).thread t).holds = true
  splice : ∀ kind, state.lists.worker = .splice kind → state.splice ≠ .lock →
    ((state.lock kind).thread workerThread).holds = true
  resting : (∀ kind, state.lists.worker ≠ .splice kind) → state.splice = .lock
  idle : ∀ kind, state.lists.worker = .splice kind → state.caller workerThread = .idle

namespace LocksOk

omit [DecidableEq Thread] in
theorem init : LocksOk workerThread (lockedListsInit Thread Addr) where
  spin _ := spinInvariant_init
  caller _ _ locked := by simp [lockedListsInit, QueuePc.locked] at locked
  splice _ its := by simp [lockedListsInit, callListsInit] at its
  resting _ := rfl
  idle _ _ := rfl

omit [DecidableEq Thread] [DecidableEq Addr] in
theorem exclusive (ok : LocksOk workerThread state) {kind : CallKind} {first second : Thread}
    (held : ((state.lock kind).thread first).holds = true)
    (held' : ((state.lock kind).thread second).holds = true) : first = second := by
  have owned := ((ok.spin kind).holder first held).2
  have owned' := ((ok.spin kind).holder second held').2
  exact Option.some.inj (owned.symm.trans owned')

omit [DecidableEq Thread] [DecidableEq Addr] in
theorem caller_unique (ok : LocksOk workerThread state) {kind : CallKind} {first second : Thread}
    (locked : (state.caller first).locked = some kind)
    (locked' : (state.caller second).locked = some kind) : first = second :=
  ok.exclusive (ok.caller first kind locked) (ok.caller second kind locked')

omit [DecidableEq Thread] [DecidableEq Addr] in
theorem not_caller (ok : LocksOk workerThread state) {kind : CallKind} {t : Thread}
    (its : state.lists.worker = .splice kind) (inside : state.splice ≠ .lock) :
    (state.caller t).locked ≠ some kind := by
  intro locked
  have same := ok.exclusive (ok.caller t kind locked) (ok.splice kind its inside)
  rw [same, ok.idle kind its] at locked
  simp [QueuePc.locked] at locked

omit [DecidableEq Thread] [DecidableEq Addr] in
theorem outside (ok : LocksOk workerThread state) {t : Thread} (busy : state.caller t ≠ .idle) :
    t = workerThread → ∀ kind, state.lists.worker ≠ .splice kind := by
  rintro rfl kind its
  exact busy (ok.idle kind its)

omit [DecidableEq Thread] [DecidableEq Addr] in
/-- A call moves, and makes an access to a lock at most. -/
theorem caller_step (ok : LocksOk workerThread state) {t : Thread}
    (worker : next.lists.worker = state.lists.worker) (splice : next.splice = state.splice)
    (spin : ∀ kind, SpinInvariant (next.lock kind))
    (others : ∀ kind other, other ≠ t →
      (next.lock kind).thread other = (state.lock kind).thread other)
    (callers : ∀ other, other ≠ t → next.caller other = state.caller other)
    (own : ∀ kind, (next.caller t).locked = some kind →
      ((next.lock kind).thread t).holds = true)
    (outside : t = workerThread → ∀ kind, state.lists.worker ≠ .splice kind) :
    LocksOk workerThread next where
  spin := spin
  caller other kind locked := by
    by_cases same : other = t
    · subst same
      exact own kind locked
    · rw [others kind other same]
      exact ok.caller other kind (callers other same ▸ locked)
  splice kind its inside := by
    rw [worker] at its
    have apart : workerThread ≠ t := fun same => outside same.symm kind its
    rw [others kind workerThread apart]
    exact ok.splice kind its (splice ▸ inside)
  resting rests := by
    rw [splice]
    exact ok.resting fun kind its => rests kind (worker.trans its)
  idle kind its := by
    rw [worker] at its
    have apart : workerThread ≠ t := fun same => outside same.symm kind its
    exact (callers workerThread apart).trans (ok.idle kind its)

omit [DecidableEq Thread] [DecidableEq Addr] in
/-- The worker moves, and makes an access to a lock at most. -/
theorem worker_step (ok : LocksOk workerThread state)
    (idle : state.caller workerThread = .idle) (callers : next.caller = state.caller)
    (spin : ∀ kind, SpinInvariant (next.lock kind))
    (others : ∀ kind other, other ≠ workerThread →
      (next.lock kind).thread other = (state.lock kind).thread other)
    (splice : ∀ kind, next.lists.worker = .splice kind → next.splice ≠ .lock →
      ((next.lock kind).thread workerThread).holds = true)
    (resting : (∀ kind, next.lists.worker ≠ .splice kind) → next.splice = .lock) :
    LocksOk workerThread next where
  spin := spin
  caller other kind locked := by
    rw [callers] at locked
    by_cases same : other = workerThread
    · subst same
      simp [idle, QueuePc.locked] at locked
    · rw [others kind other same]
      exact ok.caller other kind locked
  splice := splice
  resting := resting
  idle kind its := by rw [callers, idle]

omit [DecidableEq Addr] in
theorem caller_access (ok : LocksOk workerThread state) {t : Thread} {kind : CallKind}
    {lock : SpinState Thread} {pc : QueuePc Addr} (access : LockAccess t (state.lock kind) lock)
    (few : AtMostContend 65535 lock) (busy : state.caller t ≠ .idle)
    (own : ∀ kind', pc.locked = some kind' → kind' = kind ∧ (lock.thread t).holds = true) :
    LocksOk workerThread ((state.setLock kind lock).setCaller t pc) := by
  apply ok.caller_step (t := t)
  · rfl
  · rfl
  · intro kind'
    by_cases same : kind' = kind
    · subst same
      simpa [LockedLists.setCaller, LockedLists.setLock] using
        access.spinInvariant (ok.spin kind') few
    · simpa [LockedLists.setCaller, LockedLists.setLock, same] using ok.spin kind'
  · intro kind' other distinct
    by_cases same : kind' = kind
    · subst same
      simpa [LockedLists.setCaller, LockedLists.setLock] using access.thread distinct
    · simp [LockedLists.setCaller, LockedLists.setLock, same]
  · intro other distinct
    exact Function.update_of_ne distinct _ _
  · intro kind' locked
    obtain ⟨rfl, holds⟩ := own kind' (by simpa [LockedLists.setCaller] using locked)
    simpa [LockedLists.setCaller, LockedLists.setLock] using holds
  · exact ok.outside busy

omit [DecidableEq Addr] in
theorem caller_goes_on (ok : LocksOk workerThread state) {t : Thread} {pc : QueuePc Addr}
    (lock : next.lock = state.lock) (caller : next.caller = Function.update state.caller t pc)
    (worker : next.lists.worker = state.lists.worker) (splice : next.splice = state.splice)
    (kept : ∀ kind, pc.locked = some kind → (state.caller t).locked = some kind)
    (outside : t = workerThread → ∀ kind, state.lists.worker ≠ .splice kind) :
    LocksOk workerThread next := by
  apply ok.caller_step (t := t) worker splice
  · intro kind
    rw [lock]
    exact ok.spin kind
  · intro kind other _
    rw [lock]
  · intro other distinct
    rw [caller, Function.update_of_ne distinct]
  · intro kind locked
    rw [caller, Function.update_self] at locked
    rw [lock]
    exact ok.caller t kind (kept kind locked)
  · exact outside

omit [DecidableEq Addr] in
theorem worker_access (ok : LocksOk workerThread state) {kind : CallKind}
    {lock : SpinState Thread} (access : LockAccess workerThread (state.lock kind) lock)
    (few : AtMostContend 65535 lock) (idle : state.caller workerThread = .idle)
    (changed : next.lock = Function.update state.lock kind lock)
    (callers : next.caller = state.caller)
    (splice : ∀ kind', next.lists.worker = .splice kind' → next.splice ≠ .lock →
      kind' = kind ∧ (lock.thread workerThread).holds = true)
    (resting : (∀ kind, next.lists.worker ≠ .splice kind) → next.splice = .lock) :
    LocksOk workerThread next := by
  apply ok.worker_step idle callers
  · intro kind'
    rw [changed]
    by_cases same : kind' = kind
    · subst same
      rw [Function.update_self]
      exact access.spinInvariant (ok.spin kind') few
    · rw [Function.update_of_ne same]
      exact ok.spin kind'
  · intro kind' other distinct
    rw [changed]
    by_cases same : kind' = kind
    · subst same
      rw [Function.update_self]
      exact access.thread distinct
    · rw [Function.update_of_ne same]
  · intro kind' its inside
    obtain ⟨rfl, holds⟩ := splice kind' its inside
    rw [changed, Function.update_self]
    exact holds
  · exact resting

omit [DecidableEq Thread] [DecidableEq Addr] in
theorem worker_goes_on (ok : LocksOk workerThread state)
    (idle : state.caller workerThread = .idle) (lock : next.lock = state.lock)
    (callers : next.caller = state.caller)
    (splice : ∀ kind, next.lists.worker = .splice kind → next.splice ≠ .lock →
      state.lists.worker = .splice kind ∧ state.splice ≠ .lock)
    (resting : (∀ kind, next.lists.worker ≠ .splice kind) → next.splice = .lock) :
    LocksOk workerThread next := by
  apply ok.worker_step idle callers
  · intro kind
    rw [lock]
    exact ok.spin kind
  · intro kind other _
    rw [lock]
  · intro kind its inside
    obtain ⟨before, insideBefore⟩ := splice kind its inside
    rw [lock]
    exact ok.splice kind before insideBefore
  · exact resting

end LocksOk

/-! ## The nodes in hand -/

/-- A node in hand belongs to one call and is on no list, and a call that is about
to store the head has linked its node to the old one. -/
structure CallersOk (state : LockedLists Thread Addr) : Prop where
  inHand : ∀ t e, (state.caller t).node = some e → state.inHand e = true
  apart : ∀ first second e, (state.caller first).node = some e →
    (state.caller second).node = some e → first = second
  unowned : ∀ e, state.inHand e = true → state.lists.owner e = none
  loaded : ∀ t kind e target, state.caller t = .storeNext kind e target →
    target = state.lists.freeList kind
  stored : ∀ t kind e, state.caller t = .storeHead kind e →
    state.lists.next e = state.lists.freeList kind

namespace CallersOk

omit [DecidableEq Thread] in
theorem init : CallersOk (lockedListsInit Thread Addr) where
  inHand t e its := by simp [lockedListsInit, QueuePc.node] at its
  apart first second e its := by simp [lockedListsInit, QueuePc.node] at its
  unowned e taken := by simp [lockedListsInit] at taken
  loaded t kind e target its := by simp [lockedListsInit] at its
  stored t kind e its := by simp [lockedListsInit] at its

omit [DecidableEq Thread] [DecidableEq Addr] in
theorem of_same (ok : CallersOk state) (lists : next.lists = state.lists)
    (inHand : next.inHand = state.inHand) (caller : next.caller = state.caller) :
    CallersOk next := by
  constructor
  · rw [inHand, caller]
    exact ok.inHand
  · rw [caller]
    exact ok.apart
  · rw [lists, inHand]
    exact ok.unowned
  · rw [lists, caller]
    exact ok.loaded
  · rw [lists, caller]
    exact ok.stored

omit [DecidableEq Addr] in
theorem setCaller (ok : CallersOk state) {t : Thread} {pc : QueuePc Addr}
    (kept : ∀ e, pc.node = some e → (state.caller t).node = some e)
    (loaded : ∀ kind e target, pc = .storeNext kind e target →
      target = state.lists.freeList kind)
    (stored : ∀ kind e, pc = .storeHead kind e →
      state.lists.next e = state.lists.freeList kind) :
    CallersOk (state.setCaller t pc) := by
  have before : ∀ {other e}, ((state.setCaller t pc).caller other).node = some e →
      (state.caller other).node = some e := by
    intro other e its
    by_cases same : other = t
    · subst same
      exact kept e (by simpa [LockedLists.setCaller] using its)
    · simpa [LockedLists.setCaller, same] using its
  exact {
    inHand := fun other e its => ok.inHand other e (before its)
    apart := fun first second e its its' => ok.apart first second e (before its) (before its')
    unowned := ok.unowned
    loaded := by
      intro other kind e target its
      by_cases same : other = t
      · subst same
        exact loaded kind e target (by simpa [LockedLists.setCaller] using its)
      · exact ok.loaded other kind e target (by simpa [LockedLists.setCaller, same] using its)
    stored := by
      intro other kind e its
      by_cases same : other = t
      · subst same
        exact stored kind e (by simpa [LockedLists.setCaller] using its)
      · exact ok.stored other kind e (by simpa [LockedLists.setCaller, same] using its) }

omit [DecidableEq Thread] in
theorem setNext (ok : CallersOk state) {t : Thread} {e : Addr} (target : Option Addr)
    (own : (state.caller t).node = some e) (early : ∀ kind, state.caller t ≠ .storeHead kind e) :
    CallersOk (state.setNext e target) where
  inHand := ok.inHand
  apart := ok.apart
  unowned := ok.unowned
  loaded := ok.loaded
  stored other kind e' its := by
    have here : state.caller other = .storeHead kind e' := its
    have distinct : e' ≠ e := by
      rintro rfl
      have same := ok.apart other t e' (by rw [here]; rfl) own
      exact early kind (same ▸ here)
    exact (Function.update_of_ne distinct _ _).trans (ok.stored other kind e' its)

theorem takeInHand (ok : CallersOk state) {t : Thread} {e : Addr} {pc : QueuePc Addr}
    (unused : state.Unused e) (takes : pc.node = some e)
    (early : ∀ kind target, pc ≠ .storeNext kind e target ∧ pc ≠ .storeHead kind e) :
    CallersOk ((state.takeInHand e).setCaller t pc) := by
  have before : ∀ {other e'}, other ≠ t →
      (((state.takeInHand e).setCaller t pc).caller other).node = some e' →
        (state.caller other).node = some e' := by
    intro other e' distinct its
    simpa [LockedLists.setCaller, LockedLists.takeInHand, distinct] using its
  have own : ∀ {e'}, (((state.takeInHand e).setCaller t pc).caller t).node = some e' → e' = e := by
    intro e' its
    have same : pc.node = some e' := by simpa [LockedLists.setCaller] using its
    exact Option.some.inj (same.symm.trans takes)
  have fresh : ∀ {other e'}, (state.caller other).node = some e' → e' ≠ e := by
    rintro other e' its rfl
    exact absurd ((ok.inHand other e' its).symm.trans unused.2) (by simp)
  exact {
    inHand := by
      intro other e' its
      by_cases same : other = t
      · subst same
        obtain rfl := own its
        exact Function.update_self _ _ _
      · have its := before same its
        exact (Function.update_of_ne (fresh its) _ _).trans (ok.inHand other e' its)
    apart := by
      intro first second e' its its'
      by_cases same : first = t
      · by_cases same' : second = t
        · rw [same, same']
        · subst same
          obtain rfl := own its
          exact absurd rfl (fresh (before same' its'))
      · by_cases same' : second = t
        · subst same'
          obtain rfl := own its'
          exact absurd rfl (fresh (before same its))
        · exact ok.apart first second e' (before same its) (before same' its')
    unowned := by
      intro e' taken
      by_cases same : e' = e
      · subst same
        exact unused.1
      · apply ok.unowned e'
        simpa [LockedLists.setCaller, LockedLists.takeInHand, same] using taken
    loaded := by
      intro other kind e' target its
      by_cases same : other = t
      · subst same
        have here : pc = .storeNext kind e' target := by simpa [LockedLists.setCaller] using its
        obtain rfl : e' = e := own (by rw [its]; rfl)
        exact absurd here (early kind target).1
      · exact ok.loaded other kind e' target (by simpa [LockedLists.setCaller,
          LockedLists.takeInHand, same] using its)
    stored := by
      intro other kind e' its
      by_cases same : other = t
      · subst same
        have here : pc = .storeHead kind e' := by simpa [LockedLists.setCaller] using its
        obtain rfl : e' = e := own (by rw [its]; rfl)
        exact absurd here (early kind none).2
      · exact ok.stored other kind e' (by simpa [LockedLists.setCaller,
          LockedLists.takeInHand, same] using its) }

/-- A call gives its node away, under the lock of the list. -/
theorem storesHead (ok : CallersOk state) (locks : LocksOk workerThread state) {t : Thread}
    {kind : CallKind} {e : Addr} (pc : state.caller t = .storeHead kind e)
    (stepped : callerListsStep state t = some next) : CallersOk next := by
  have apart : ∀ {other e'}, other ≠ t → (state.caller other).node = some e' → e' ≠ e := by
    rintro other e' distinct its rfl
    exact distinct (ok.apart other t e' its (by rw [pc]; rfl))
  have alone : ∀ {other kind'}, other ≠ t → (state.caller other).locked = some kind' →
      kind' ≠ kind := by
    rintro other kind' distinct its rfl
    exact distinct (locks.caller_unique its (by rw [pc]; rfl))
  simp only [callerListsStep, pc, Option.some.injEq] at stepped
  have caller : ∀ {other}, other ≠ t → next.caller other = state.caller other := by
    intro other distinct
    subst stepped
    exact Function.update_of_ne distinct _ _
  have own : next.caller t = .unlock kind := by
    subst stepped
    exact Function.update_self _ _ _
  constructor
  · intro other e' its
    by_cases same : other = t
    · subst same
      simp [own, QueuePc.node] at its
    · rw [caller same] at its
      subst stepped
      exact (Function.update_of_ne (apart same its) _ _).trans (ok.inHand other e' its)
  · intro first second e' its its'
    by_cases same : first = t
    · subst same
      simp [own, QueuePc.node] at its
    · by_cases same' : second = t
      · subst same'
        simp [own, QueuePc.node] at its'
      · rw [caller same] at its
        rw [caller same'] at its'
        exact ok.apart first second e' its its'
  · intro e' its
    subst stepped
    by_cases same : e' = e
    · subst same
      simp [LockedLists.setCaller] at its
    · simp only [LockedLists.setCaller, Function.update_of_ne same] at its ⊢
      exact ok.unowned e' its
  · intro other kind' e' target its
    by_cases same : other = t
    · subst same
      simp [own] at its
    · rw [caller same] at its
      subst stepped
      simp only [LockedLists.setCaller]
      rw [Function.update_of_ne (alone same (by rw [its]; rfl))]
      exact ok.loaded other kind' e' target its
  · intro other kind' e' its
    by_cases same : other = t
    · subst same
      simp [own] at its
    · rw [caller same] at its
      subst stepped
      simp only [LockedLists.setCaller]
      rw [Function.update_of_ne (alone same (by rw [its]; rfl))]
      exact ok.stored other kind' e' its

omit [DecidableEq Thread] [DecidableEq Addr] in
theorem worker (ok : CallersOk state) (inHand : next.inHand = state.inHand)
    (caller : next.caller = state.caller)
    (taken : ∀ e, state.inHand e = true → state.lists.owner e = none →
      next.lists.next e = state.lists.next e ∧ next.lists.owner e = none)
    (freeList : ∀ t kind, (state.caller t).locked = some kind →
      next.lists.freeList kind = state.lists.freeList kind) :
    CallersOk next := by
  constructor
  · rw [inHand, caller]
    exact ok.inHand
  · rw [caller]
    exact ok.apart
  · rw [inHand]
    exact fun e its => (taken e its (ok.unowned e its)).2
  · rw [caller]
    intro t kind e target its
    rw [freeList t kind (by rw [its]; rfl)]
    exact ok.loaded t kind e target its
  · rw [caller]
    intro t kind e its
    have held := ok.inHand t e (by rw [its]; rfl)
    rw [freeList t kind (by rw [its]; rfl), (taken e held (ok.unowned e held)).1]
    exact ok.stored t kind e its

end CallersOk

end LightRcu
