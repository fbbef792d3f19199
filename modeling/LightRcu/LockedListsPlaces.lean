import LightRcu.LockedListsRefinement

/-!
# Nobody gets stuck under the list locks

Each thread uses a lock in turn: it draws a ticket while it does not hold the lock,
and lets it go while it does.  So whoever is in a call or in a splice can take its
next step, and `LRCU_ASSERT(e_prev)` does not fail on the way.
-/

namespace LightRcu

open Execution

variable {Thread Addr : Type*} [DecidableEq Thread] [DecidableEq Addr]
  {state next : LockedLists Thread Addr} {workerThread : Thread}

/-! ## Places -/

/-- Where a thread is relative to a lock. -/
inductive LockPlace
  | outside
  | locking
  | inside
  | unlocking
  deriving DecidableEq, Repr

/-- What the lock knows of a thread at the place. -/
def LockPlace.Fits : LockPlace → SpinThread → Prop
  | .outside, me => me.holds = false ∧ me.pc = .idle
  | .locking, me => me.holds = false ∧ (me.pc = .idle ∨ ∃ ticket, me.pc = .spinning ticket)
  | .inside, me => me.holds = true ∧ me.pc = .idle
  | .unlocking, me => me.holds = true ∧ (me.pc = .idle ∨ ∃ ticket, me.pc = .unlocking ticket)

omit [DecidableEq Addr] in
def QueuePc.place (kind : CallKind) : QueuePc Addr → LockPlace
  | .idle => .outside
  | .lockList => if kind = .list then .locking else .outside
  | .lockHlist _ => if kind = .hlist then .locking else .outside
  | .malloc | .clearNext _ => if kind = .list then .inside else .outside
  | .testEmpty kind' _ | .loadHead kind' _ | .storeNext kind' _ _ | .storeHead kind' _ =>
      if kind = kind' then .inside else .outside
  | .unlock kind' => if kind = kind' then .unlocking else .outside

omit [DecidableEq Addr] in
def SplicePc.place : SplicePc Addr → LockPlace
  | .lock => .locking
  | .unlock => .unlocking
  | _ => .inside

namespace LockedLists

def place (state : LockedLists Thread Addr) (workerThread t : Thread) (kind : CallKind) :
    LockPlace :=
  if t = workerThread ∧ state.lists.worker = .splice kind then state.splice.place
  else (state.caller t).place kind

end LockedLists

/-- Every thread uses the locks in turn. -/
def PlacesOk (workerThread : Thread) (state : LockedLists Thread Addr) : Prop :=
  ∀ t kind, (state.place workerThread t kind).Fits ((state.lock kind).thread t)

theorem lrcuSpinLockStep_goes_on {lock : SpinState Thread} {t : Thread}
    (fits : LockPlace.locking.Fits (lock.thread t)) :
    ∃ lock', lrcuSpinLockStep lock t = some lock' ∧
      (if (lock'.thread t).holds then LockPlace.inside else .locking).Fits (lock'.thread t) := by
  obtain ⟨free, idle | ⟨ticket, spins⟩⟩ := fits
  · refine ⟨_, by simp [lrcuSpinLockStep, idle, spinStep, free]; rfl, ?_⟩
    simp [LockPlace.Fits]
  · by_cases turn : lock.word.ticket = ticket
    · refine ⟨_, by simp [lrcuSpinLockStep, spins, spinStep, turn]; rfl, ?_⟩
      simp [LockPlace.Fits]
    · refine ⟨_, by simp [lrcuSpinLockStep, spins, spinStep, turn]; rfl, ?_⟩
      simp [free, spins, LockPlace.Fits]

theorem lrcuSpinUnlockStep_goes_on {lock : SpinState Thread} {t : Thread}
    (fits : LockPlace.unlocking.Fits (lock.thread t)) :
    ∃ lock', lrcuSpinUnlockStep lock t = some lock' ∧
      (if (lock'.thread t).holds then LockPlace.unlocking else .outside).Fits
        (lock'.thread t) := by
  obtain ⟨holds, idle | ⟨ticket, unlocks⟩⟩ := fits
  · refine ⟨_, by simp [lrcuSpinUnlockStep, idle, spinStep, holds]; rfl, ?_⟩
    simp [LockPlace.Fits]
  · refine ⟨_, by simp [lrcuSpinUnlockStep, unlocks, spinStep]; rfl, ?_⟩
    simp [LockPlace.Fits]

namespace PlacesOk

theorem init : PlacesOk workerThread (lockedListsInit Thread Addr) := by
  intro t kind
  have place : (lockedListsInit Thread Addr).place workerThread t kind = .outside := by
    simp [LockedLists.place, lockedListsInit, callListsInit, QueuePc.place]
  rw [place]
  exact ⟨rfl, rfl⟩

theorem moves (ok : PlacesOk workerThread state) {t : Thread}
    (others : ∀ other, other ≠ t → ∀ kind,
      (next.lock kind).thread other = (state.lock kind).thread other ∧
        next.place workerThread other kind = state.place workerThread other kind)
    (own : ∀ kind, (next.place workerThread t kind).Fits ((next.lock kind).thread t)) :
    PlacesOk workerThread next := by
  intro other kind
  by_cases same : other = t
  · subst same
    exact own kind
  · obtain ⟨thread, place⟩ := others other same kind
    rw [thread, place]
    exact ok other kind

end PlacesOk

namespace LockedLists

theorem place_of_outside {t : Thread}
    (outside : t = workerThread → ∀ kind, state.lists.worker ≠ .splice kind) (kind : CallKind) :
    state.place workerThread t kind = (state.caller t).place kind := by
  unfold place
  rw [if_neg]
  rintro ⟨same, its⟩
  exact outside same kind its

theorem place_of_splice {kind : CallKind} (its : state.lists.worker = .splice kind) :
    state.place workerThread workerThread kind = state.splice.place := by
  simp [place, its]

theorem place_of_caller {t other : Thread} {pc : QueuePc Addr}
    (callers : next.caller = Function.update state.caller t pc)
    (worker : next.lists.worker = state.lists.worker) (splice : next.splice = state.splice)
    (distinct : other ≠ t) (kind : CallKind) :
    next.place workerThread other kind = state.place workerThread other kind := by
  unfold place
  rw [callers, worker, splice, Function.update_of_ne distinct]

theorem place_of_worker {other : Thread} (callers : next.caller = state.caller)
    (distinct : other ≠ workerThread) (kind : CallKind) :
    next.place workerThread other kind = state.place workerThread other kind := by
  simp [place, distinct, callers]

end LockedLists

namespace PlacesOk

/-- A call goes on without an access to a lock. -/
theorem caller_goes_on (ok : PlacesOk workerThread state) {t : Thread} {pc : QueuePc Addr}
    (lock : next.lock = state.lock) (callers : next.caller = Function.update state.caller t pc)
    (worker : next.lists.worker = state.lists.worker) (splice : next.splice = state.splice)
    (outside : t = workerThread → ∀ kind, state.lists.worker ≠ .splice kind)
    (fits : ∀ kind me, ((state.caller t).place kind).Fits me → (pc.place kind).Fits me) :
    PlacesOk workerThread next := by
  apply ok.moves (t := t)
  · intro other distinct kind
    rw [lock]
    exact ⟨rfl, LockedLists.place_of_caller callers worker splice distinct kind⟩
  · intro kind
    have before := ok t kind
    rw [LockedLists.place_of_outside outside] at before
    rw [LockedLists.place_of_outside (worker ▸ outside), callers, Function.update_self, lock]
    exact fits kind _ before

theorem caller_access (ok : PlacesOk workerThread state) {t : Thread} {kind : CallKind}
    {lock : SpinState Thread} {pc : QueuePc Addr} (access : LockAccess t (state.lock kind) lock)
    (changed : next.lock = Function.update state.lock kind lock)
    (callers : next.caller = Function.update state.caller t pc)
    (worker : next.lists.worker = state.lists.worker) (splice : next.splice = state.splice)
    (outside : t = workerThread → ∀ kind, state.lists.worker ≠ .splice kind)
    (fits : (pc.place kind).Fits (lock.thread t))
    (others : ∀ kind', kind' ≠ kind → pc.place kind' = (state.caller t).place kind') :
    PlacesOk workerThread next := by
  apply ok.moves (t := t)
  · intro other distinct kind'
    refine ⟨?_, LockedLists.place_of_caller callers worker splice distinct kind'⟩
    rw [changed]
    by_cases same : kind' = kind
    · subst same
      rw [Function.update_self]
      exact access.thread distinct
    · rw [Function.update_of_ne same]
  · intro kind'
    rw [LockedLists.place_of_outside (worker ▸ outside), callers, Function.update_self, changed]
    by_cases same : kind' = kind
    · subst same
      rwa [Function.update_self]
    · rw [Function.update_of_ne same, others kind' same,
        ← LockedLists.place_of_outside outside]
      exact ok t kind'

theorem worker_step (ok : PlacesOk workerThread state) (callers : next.caller = state.caller)
    (others : ∀ kind other, other ≠ workerThread →
      (next.lock kind).thread other = (state.lock kind).thread other)
    (own : ∀ kind, (next.place workerThread workerThread kind).Fits
      ((next.lock kind).thread workerThread)) :
    PlacesOk workerThread next := by
  apply ok.moves (t := workerThread)
  · intro other distinct kind
    exact ⟨others kind other distinct, LockedLists.place_of_worker callers distinct kind⟩
  · exact own

end PlacesOk

/-! ## Steps -/

theorem LockPlace.Fits.enters {me : SpinThread} (fits : LockPlace.outside.Fits me) :
    LockPlace.locking.Fits me :=
  ⟨fits.1, Or.inl fits.2⟩

theorem LockPlace.Fits.leaves {me : SpinThread} (fits : LockPlace.inside.Fits me) :
    LockPlace.unlocking.Fits me :=
  ⟨fits.1, Or.inl fits.2⟩

namespace PlacesOk

/-- A thread in a call can take its next step, unless it waits for memory. -/
theorem caller (ok : PlacesOk workerThread state) {t : Thread}
    (outside : t = workerThread → ∀ kind, state.lists.worker ≠ .splice kind)
    (busy : state.caller t ≠ .idle) (allocated : state.caller t ≠ .malloc) :
    ∃ next, callerListsStep state t = some next ∧ PlacesOk workerThread next := by
  have fits : ∀ kind, ((state.caller t).place kind).Fits ((state.lock kind).thread t) := by
    intro kind
    rw [← LockedLists.place_of_outside outside]
    exact ok t kind
  cases pc : state.caller t with
  | idle => exact absurd pc busy
  | malloc => exact absurd pc allocated
  | lockList =>
      have here := fits .list
      rw [pc] at here
      obtain ⟨lock, locked, after⟩ := lrcuSpinLockStep_goes_on here
      refine ⟨_, by simp only [callerListsStep, pc, locked, Option.map_some]; rfl, ?_⟩
      apply ok.caller_access (t := t) (Or.inl locked)
      · rfl
      · rfl
      · rfl
      · rfl
      · exact outside
      · split_ifs at after ⊢ <;> exact after
      · intro kind' other
        rw [pc]
        split_ifs <;> simp [QueuePc.place, other]
  | lockHlist e =>
      have here := fits .hlist
      rw [pc] at here
      obtain ⟨lock, locked, after⟩ := lrcuSpinLockStep_goes_on here
      refine ⟨_, by simp only [callerListsStep, pc, locked, Option.map_some]; rfl, ?_⟩
      apply ok.caller_access (t := t) (Or.inl locked)
      · rfl
      · rfl
      · rfl
      · rfl
      · exact outside
      · split_ifs at after ⊢ <;> exact after
      · intro kind' other
        rw [pc]
        split_ifs <;> simp [QueuePc.place, other]
  | unlock kind =>
      have here := fits kind
      simp only [pc, QueuePc.place, if_true] at here
      obtain ⟨lock, unlocked, after⟩ := lrcuSpinUnlockStep_goes_on here
      refine ⟨_, by simp only [callerListsStep, pc, unlocked, Option.map_some]; rfl, ?_⟩
      apply ok.caller_access (t := t) (Or.inr unlocked)
      · rfl
      · rfl
      · rfl
      · rfl
      · exact outside
      · split_ifs at after ⊢
        · simpa only [QueuePc.place, if_true] using after
        · exact after
      · intro kind' other
        rw [pc]
        split_ifs <;> simp [QueuePc.place, other]
  | clearNext e =>
      refine ⟨_, by simp only [callerListsStep, pc]; rfl, ?_⟩
      apply ok.caller_goes_on (t := t)
      · rfl
      · rfl
      · rfl
      · rfl
      · exact outside
      · rw [pc]
        exact fun _ _ same => same
  | testEmpty kind e =>
      refine ⟨_, by simp only [callerListsStep, pc]; rfl, ?_⟩
      apply ok.caller_goes_on (t := t)
      · rfl
      · rfl
      · rfl
      · rfl
      · exact outside
      · rw [pc]
        intro kind' me same
        split_ifs <;> exact same
  | loadHead kind e | storeNext kind e target =>
      refine ⟨_, by simp only [callerListsStep, pc]; rfl, ?_⟩
      apply ok.caller_goes_on (t := t)
      · rfl
      · rfl
      · rfl
      · rfl
      · exact outside
      · rw [pc]
        exact fun _ _ same => same
  | storeHead kind e =>
      refine ⟨_, by simp only [callerListsStep, pc]; rfl, ?_⟩
      apply ok.caller_goes_on (t := t)
      · rfl
      · rfl
      · rfl
      · rfl
      · exact outside
      · rw [pc]
        intro kind' me same
        simp only [QueuePc.place] at same ⊢
        split_ifs at same ⊢
        · exact same.leaves
        · exact same

/-- Outside of its splice, the worker in its rounds uses no lock. -/
theorem rests (ok : PlacesOk workerThread state) {kind : CallKind}
    (idle : state.caller workerThread = .idle) (other : state.lists.worker ≠ .splice kind) :
    LockPlace.outside.Fits ((state.lock kind).thread workerThread) := by
  have before := ok workerThread kind
  simpa [LockedLists.place, other, idle, QueuePc.place] using before

theorem splice_goes_on (ok : PlacesOk workerThread state) (lock : next.lock = state.lock)
    (callers : next.caller = state.caller) (worker : next.lists.worker = state.lists.worker)
    (fits : ∀ me, state.splice.place.Fits me → next.splice.place.Fits me) :
    PlacesOk workerThread next := by
  apply ok.worker_step callers
  · intro kind' other _
    rw [lock]
  · intro kind'
    have before := ok workerThread kind'
    rw [lock]
    unfold LockedLists.place at before ⊢
    rw [worker, callers]
    split_ifs at before ⊢
    · exact fits _ before
    · exact before

theorem splice_access (ok : PlacesOk workerThread state) {kind : CallKind}
    {lock : SpinState Thread} (access : LockAccess workerThread (state.lock kind) lock)
    (idle : state.caller workerThread = .idle) (its : state.lists.worker = .splice kind)
    (changed : next.lock = Function.update state.lock kind lock)
    (callers : next.caller = state.caller)
    (fits : next.lists.worker = .splice kind ∧ next.splice.place.Fits (lock.thread workerThread) ∨
      (∀ kind', next.lists.worker ≠ .splice kind') ∧
        LockPlace.outside.Fits (lock.thread workerThread)) :
    PlacesOk workerThread next := by
  apply ok.worker_step callers
  · intro kind' other distinct
    rw [changed]
    by_cases same : kind' = kind
    · subst same
      rw [Function.update_self]
      exact access.thread distinct
    · rw [Function.update_of_ne same]
  · intro kind'
    rw [changed]
    by_cases same : kind' = kind
    · subst same
      rw [Function.update_self]
      rcases fits with ⟨its', fits⟩ | ⟨plain, fits⟩
      · rwa [LockedLists.place_of_splice its']
      · simpa [LockedLists.place, plain, callers, idle, QueuePc.place] using fits
    · rw [Function.update_of_ne same]
      have other : state.lists.worker ≠ .splice kind' := by
        rw [its]
        exact fun equal => same (ListsPc.splice.inj equal).symm
      have other' : next.lists.worker ≠ .splice kind' := by
        rcases fits with ⟨its', _⟩ | ⟨plain, _⟩
        · rw [its']
          exact fun equal => same (ListsPc.splice.inj equal).symm
        · exact plain kind'
      simpa [LockedLists.place, other', callers, idle, QueuePc.place] using ok.rests idle other

theorem splice (ok : PlacesOk workerThread state) {kind : CallKind}
    (idle : state.caller workerThread = .idle) (its : state.lists.worker = .splice kind)
    (found : ∀ first, state.splice ≠ .storeTail none first) :
    ∃ next, spliceStep state workerThread kind = some next ∧ PlacesOk workerThread next := by
  have fits := ok workerThread kind
  rw [LockedLists.place_of_splice its] at fits
  cases at_ : state.splice with
  | lock =>
      rw [at_] at fits
      obtain ⟨lock, locked, after⟩ := lrcuSpinLockStep_goes_on fits
      refine ⟨_, by simp only [spliceStep, at_, locked, Option.map_some]; rfl, ?_⟩
      apply ok.splice_access (Or.inl locked) idle its
      · rfl
      · rfl
      · refine Or.inl ⟨its, ?_⟩
        split_ifs at after ⊢ <;> exact after
  | unlock =>
      rw [at_] at fits
      obtain ⟨lock, unlocked, after⟩ := lrcuSpinUnlockStep_goes_on fits
      refine ⟨_, by simp only [spliceStep, at_, unlocked, Option.map_some]; rfl, ?_⟩
      apply ok.splice_access (Or.inr unlocked) idle its
      · split_ifs <;> rfl
      · split_ifs <;> rfl
      · split_ifs at after ⊢
        · left
          refine ⟨its, ?_⟩
          simp only [LockedLists.setLock, at_]
          exact after
        · refine Or.inr ⟨fun kind' => ?_, after⟩
          cases kind <;> simp [ListsPc.afterSplice]
  | storeTail ePrev first =>
      cases ePrev with
      | none => exact absurd at_ (found first)
      | some last =>
          refine ⟨_, by simp only [spliceStep, at_]; rfl, ?_⟩
          apply ok.splice_goes_on
          · rfl
          · rfl
          · rfl
          · rw [at_]
            exact fun _ same => same
  | getTailLoop e ePrev first =>
      cases e with
      | none | some e =>
          refine ⟨_, by simp only [spliceStep, at_]; rfl, ?_⟩
          apply ok.splice_goes_on
          · rfl
          · rfl
          · rfl
          · rw [at_]
            exact fun _ same => same
  | testFree =>
      refine ⟨_, by simp only [spliceStep, at_]; rfl, ?_⟩
      apply ok.splice_goes_on
      · rfl
      · rfl
      · rfl
      · rw [at_]
        intro me same
        split_ifs
        · exact same.leaves
        · exact same
  | testWorker =>
      refine ⟨_, by simp only [spliceStep, at_]; rfl, ?_⟩
      apply ok.splice_goes_on
      · rfl
      · rfl
      · rfl
      · rw [at_]
        intro me same
        split_ifs <;> exact same
  | loadFree | storeWorker | loadFirst | getTail =>
      refine ⟨_, by simp only [spliceStep, at_]; rfl, ?_⟩
      apply ok.splice_goes_on
      · rfl
      · rfl
      · rfl
      · rw [at_]
        exact fun _ same => same
  | clearFree =>
      refine ⟨_, by simp only [spliceStep, at_]; rfl, ?_⟩
      apply ok.splice_goes_on
      · rfl
      · rfl
      · rfl
      · rw [at_]
        exact fun _ same => same.leaves

theorem worksOn (ok : PlacesOk workerThread state) {lists : CallLists Addr}
    (idle : state.caller workerThread = .idle)
    (plain : ∀ kind, state.lists.worker ≠ .splice kind) (resting : state.splice = .lock) :
    PlacesOk workerThread { state with lists := lists } := by
  apply ok.worker_step
  · rfl
  · exact fun _ _ _ => rfl
  · intro kind
    have before := ok.rests idle (plain kind)
    unfold LockedLists.place
    split_ifs
    · rw [resting]
      exact before.enters
    · rw [idle]
      exact before

end PlacesOk

/-! ## Runs -/

omit [DecidableEq Thread] in
/-- `LRCU_ASSERT(e_prev)` does not fail. -/
theorem Related.finds_tail {abstract : CallLists Addr} {kind : CallKind}
    (related : Related workerThread state abstract) (its : state.lists.worker = .splice kind)
    (first : Option Addr) : state.splice ≠ .storeTail none first := by
  intro at_
  have shows := related.worker
  unfold WorkerShows at shows
  rw [its, at_] at shows
  obtain ⟨⟨_, listed, _, addrs, chain, last⟩, _⟩ := shows
  obtain rfl := List.getLast?_eq_none_iff.mp last.symm
  exact listed chain

/-- What holds in every state while few threads contend for the locks. -/
structure LockedListsOk (workerThread : Thread) (state : LockedLists Thread Addr) : Prop where
  related : ∃ coarse, Related workerThread state coarse
  places : PlacesOk workerThread state

namespace LockedListsOk

theorem init : LockedListsOk workerThread (lockedListsInit Thread Addr) :=
  ⟨⟨_, Related.init⟩, PlacesOk.init⟩

/-- A thread in a call can take its next step, unless it waits for memory. -/
theorem caller_goes_on (ok : LockedListsOk workerThread state) {t : Thread}
    (busy : state.caller t ≠ .idle) (allocated : state.caller t ≠ .malloc) :
    ∃ next, lockedListsStep workerThread state (.caller t) = some next ∧
      PlacesOk workerThread next := by
  obtain ⟨coarse, related⟩ := ok.related
  exact ok.places.caller (related.locks.outside busy) busy allocated

theorem worker_goes_on (ok : LockedListsOk workerThread state)
    (idle : state.caller workerThread = .idle) (held : Bool) :
    ∃ next, lockedListsStep workerThread state (.worker held) = some next ∧
      PlacesOk workerThread next := by
  obtain ⟨coarse, related⟩ := ok.related
  by_cases splices : ∃ kind, state.lists.worker = .splice kind
  · obtain ⟨kind, its⟩ := splices
    obtain ⟨next, stepped, places⟩ := ok.places.splice idle its (related.finds_tail its)
    exact ⟨next, by simpa [lockedListsStep, idle, its] using stepped, places⟩
  · have plain : ∀ kind, state.lists.worker ≠ .splice kind :=
      fun kind its => splices ⟨kind, its⟩
    obtain ⟨lists, _, worked, _⟩ := related.worksOn idle plain held
    refine ⟨{ state with lists := lists }, ?_,
      ok.places.worksOn idle plain (related.locks.resting plain)⟩
    simp only [lockedListsStep, idle, if_true, worked, Option.map_some]

theorem step {action : LockedListsAction Thread Addr} (ok : LockedListsOk workerThread state)
    (few : FewContend 65535 next)
    (stepped : lockedListsStep workerThread state action = some next) :
    LockedListsOk workerThread next := by
  obtain ⟨coarse, related⟩ := ok.related
  have follows : ∃ coarse, Related workerThread next coarse := by
    rcases related.step few stepped with stays | ⟨_, after, _, follows⟩
    · exact ⟨coarse, stays⟩
    · exact ⟨after, follows⟩
  refine ⟨follows, ?_⟩
  cases action with
  | call t =>
      simp only [lockedListsStep, Option.ite_none_right_eq_some, Option.some.injEq] at stepped
      obtain ⟨may, rfl⟩ := stepped
      apply ok.places.caller_goes_on (t := t)
      · rfl
      · rfl
      · rfl
      · rfl
      · exact may.outside
      · rw [may.1]
        intro kind me fits
        simp only [QueuePc.place]
        split_ifs
        · exact fits.enters
        · exact fits
  | callHead t e =>
      simp only [lockedListsStep, Option.ite_none_right_eq_some, Option.some.injEq] at stepped
      obtain ⟨⟨may, _⟩, rfl⟩ := stepped
      apply ok.places.caller_goes_on (t := t)
      · rfl
      · rfl
      · rfl
      · rfl
      · exact may.outside
      · rw [may.1]
        intro kind me fits
        simp only [QueuePc.place]
        split_ifs
        · exact fits.enters
        · exact fits
  | malloc t result =>
      simp only [lockedListsStep, Option.ite_none_right_eq_some] at stepped
      obtain ⟨pc, stepped⟩ := stepped
      have outside := related.locks.outside (t := t) (by simp [pc])
      cases result with
      | none =>
          obtain rfl := Option.some.inj stepped
          apply ok.places.caller_goes_on (t := t)
          · rfl
          · rfl
          · rfl
          · rfl
          · exact outside
          · rw [pc]
            intro kind me fits
            simp only [QueuePc.place] at fits ⊢
            split_ifs at fits ⊢
            · exact fits.leaves
            · exact fits
      | some e =>
          simp only [Option.ite_none_right_eq_some, Option.some.injEq] at stepped
          obtain ⟨_, rfl⟩ := stepped
          apply ok.places.caller_goes_on (t := t)
          · rfl
          · rfl
          · rfl
          · rfl
          · exact outside
          · rw [pc]
            exact fun _ _ fits => fits
  | caller t =>
      have busy : state.caller t ≠ .idle ∧ state.caller t ≠ .malloc := by
        constructor
        · intro pc
          simp [lockedListsStep, callerListsStep, pc] at stepped
        · intro pc
          simp [lockedListsStep, callerListsStep, pc] at stepped
      obtain ⟨next', stepped', places⟩ := ok.caller_goes_on busy.1 busy.2
      exact Option.some.inj (stepped'.symm.trans stepped) ▸ places
  | worker held =>
      have idle : state.caller workerThread = .idle := by
        by_contra busy
        simp [lockedListsStep, busy] at stepped
      obtain ⟨next', stepped', places⟩ := ok.worker_goes_on idle held
      exact Option.some.inj (stepped'.symm.trans stepped) ▸ places

theorem of_run {actions : List (LockedListsAction Thread Addr)} {final : LockedLists Thread Addr}
    (few : Throughout (lockedListsStep workerThread) (FewContend 65535)
      (lockedListsInit Thread Addr) actions)
    (ran : run (lockedListsStep workerThread) (lockedListsInit Thread Addr) actions =
      some final) :
    LockedListsOk workerThread final :=
  run_preserves_of_throughout (LockedListsOk workerThread)
    (fun _ _ _ ok few stepped => ok.step few stepped) few init ran

end LockedListsOk

end LightRcu
