import LightRcu.CallbackConservation
import LightRcu.LockedListsInvariants

/-!
# Calls under the list locks

How a state in which sections are under way corresponds to one of `CallLists`.
Nobody can tell that a call is under way until it stores the head of the free
list: its node is in hand, and on no list.  With that store the call takes effect.
-/

namespace LightRcu

open Execution

variable {Thread Addr : Type*} [DecidableEq Thread] [DecidableEq Addr]
  {state next : LockedLists Thread Addr} {abstract : CallLists Addr} {workerThread : Thread}

/-! ## The relation -/

/-- Off hand, the `next` fields and the lists of the worker are the given ones. -/
structure MemoryIs (state : LockedLists Thread Addr) (next : Addr → Option Addr)
    (workerList : CallKind → Option Addr) : Prop where
  next : ∀ e, state.inHand e = false → state.lists.next e = next e
  workerList : state.lists.workerList = workerList

/-- What the sections leave alone until they take effect. -/
structure SameData (lists abstract : CallLists Addr) : Prop where
  freeList : lists.freeList = abstract.freeList
  obj : lists.obj = abstract.obj
  owner : lists.owner = abstract.owner
  registered : lists.registered = abstract.registered
  invocations : lists.invocations = abstract.invocations
  destroyed : lists.destroyed = abstract.destroyed

/-- What the worker knows in the section of its splice. -/
def SpliceKnows (abstract : CallLists Addr) (kind : CallKind) : SplicePc Addr → Prop
  | .lock | .testFree | .unlock => True
  | .testWorker => abstract.freeList kind ≠ none
  | .loadFree => abstract.freeList kind ≠ none ∧ abstract.workerList kind = none
  | .storeWorker first =>
      abstract.freeList kind ≠ none ∧ abstract.workerList kind = none ∧
        first = abstract.freeList kind
  | .loadFirst => abstract.freeList kind ≠ none ∧ abstract.workerList kind ≠ none
  | .getTail first =>
      abstract.freeList kind ≠ none ∧ abstract.workerList kind ≠ none ∧
        first = abstract.freeList kind
  | .getTailLoop e ePrev first =>
      abstract.freeList kind ≠ none ∧ abstract.workerList kind ≠ none ∧
        first = abstract.freeList kind ∧ ∃ before rest,
          Chain abstract.next (abstract.workerList kind) (before ++ rest) ∧ e = rest.head? ∧
            ePrev = before.getLast?
  | .storeTail ePrev first =>
      abstract.freeList kind ≠ none ∧ abstract.workerList kind ≠ none ∧
        first = abstract.freeList kind ∧ ∃ addrs,
          Chain abstract.next (abstract.workerList kind) addrs ∧ ePrev = addrs.getLast?
  | .clearFree => abstract.freeList kind ≠ none

/-- The worker is at the same place in both systems, and memory is the same. -/
def Settled (state : LockedLists Thread Addr) (abstract : CallLists Addr) (pc : ListsPc Addr) :
    Prop :=
  abstract.worker = pc ∧ MemoryIs state abstract.next abstract.workerList

/-- The free list is behind the list of the worker already. -/
def Spliced (state : LockedLists Thread Addr) (abstract : CallLists Addr) (kind : CallKind) :
    Prop :=
  abstract.worker = .splice kind ∧
    (abstract.workerList kind = none ∧ MemoryIs state abstract.next
        (Function.update abstract.workerList kind (abstract.freeList kind)) ∨
      ∃ before last, Chain abstract.next (abstract.workerList kind) (before ++ [last]) ∧
        MemoryIs state (Function.update abstract.next last (abstract.freeList kind))
          abstract.workerList)

def SpliceMemory (state : LockedLists Thread Addr) (abstract : CallLists Addr) (kind : CallKind) :
    SplicePc Addr → Prop
  | .clearFree => Spliced state abstract kind
  | .unlock => Settled state abstract (.afterSplice kind)
  | _ => Settled state abstract (.splice kind)

def WorkerShows (state : LockedLists Thread Addr) (abstract : CallLists Addr) : Prop :=
  match state.lists.worker with
  | .splice kind =>
      SpliceKnows abstract kind state.splice ∧ SpliceMemory state abstract kind state.splice
  | pc => Settled state abstract pc

structure Related (workerThread : Thread) (state : LockedLists Thread Addr)
    (abstract : CallLists Addr) : Prop where
  reachable : Reachable (· = callListsInit) callListsStep abstract
  locks : LocksOk workerThread state
  callers : CallersOk state
  data : SameData state.lists abstract
  worker : WorkerShows state abstract

omit [DecidableEq Thread] in
theorem WorkerShows.mono (shows : WorkerShows state abstract)
    (worker : next.lists.worker = state.lists.worker) (splice : next.splice = state.splice)
    (memory : ∀ field list, MemoryIs state field list → MemoryIs next field list) :
    WorkerShows next abstract := by
  have settled : ∀ {pc}, Settled state abstract pc → Settled next abstract pc :=
    fun settled => ⟨settled.1, memory _ _ settled.2⟩
  unfold WorkerShows at shows ⊢
  rw [worker, splice]
  cases pc : state.lists.worker with
  | splice kind =>
      rw [pc] at shows
      refine ⟨shows.1, ?_⟩
      have before := shows.2
      cases at_ : state.splice with
      | clearFree =>
          rw [at_] at before
          refine ⟨before.1, before.2.imp (fun left => ⟨left.1, memory _ _ left.2⟩) ?_⟩
          rintro ⟨kept, last, chain, left⟩
          exact ⟨kept, last, chain, memory _ _ left⟩
      | lock | testFree | testWorker | loadFree | storeWorker | loadFirst | getTail
      | getTailLoop | storeTail | unlock =>
          rw [at_] at before
          exact settled before
  | testFree | testWorker | forEach | lookup | deinit | unlink | freeNode | callFunc | func =>
      rw [pc] at shows
      exact settled shows

/-! ## Calls before they take effect -/

omit [DecidableEq Thread] in
/-- A call has written to nodes in hand at most. -/
theorem Related.frame (related : Related workerThread state abstract)
    (locks : LocksOk workerThread next) (callers : CallersOk next) {field : Addr → Option Addr}
    (lists : next.lists = { state.lists with next := field })
    (splice : next.splice = state.splice)
    (offHand : ∀ e, next.inHand e = false →
      state.inHand e = false ∧ field e = state.lists.next e) :
    Related workerThread next abstract where
  reachable := related.reachable
  locks := locks
  callers := callers
  data := by
    rw [lists]
    exact ⟨related.data.freeList, related.data.obj, related.data.owner, related.data.registered,
      related.data.invocations, related.data.destroyed⟩
  worker := by
    apply related.worker.mono (by rw [lists]) splice
    intro field' list memory
    refine ⟨fun e off => ?_, by rw [lists]; exact memory.workerList⟩
    obtain ⟨offBefore, same⟩ := offHand e off
    rw [lists]
    exact same.trans (memory.next e offBefore)

theorem Related.access (related : Related workerThread state abstract) {t : Thread}
    {kind : CallKind} {lock : SpinState Thread} {inside outside : QueuePc Addr}
    (access : LockAccess t (state.lock kind) lock)
    (few : FewContend 65535 ((state.setLock kind lock).setCaller t
      (if (lock.thread t).holds then inside else outside)))
    (busy : state.caller t ≠ .idle)
    (locked : inside.locked = some kind) (unlocked : outside.locked = none)
    (kept : ∀ e, inside.node = some e ∨ outside.node = some e → (state.caller t).node = some e)
    (early : ¬ inside.Storing ∧ ¬ outside.Storing) :
    Related workerThread ((state.setLock kind lock).setCaller t
      (if (lock.thread t).holds then inside else outside)) abstract := by
  have fewer : AtMostContend 65535 lock := by
    simpa [LockedLists.setCaller, LockedLists.setLock] using few kind
  have neither : ¬ (if (lock.thread t).holds then inside else outside).Storing := by
    split_ifs
    · exact early.1
    · exact early.2
  have locks : LocksOk workerThread ((state.setLock kind lock).setCaller t
      (if (lock.thread t).holds then inside else outside)) := by
    apply related.locks.caller_access access fewer busy
    intro kind' its
    split_ifs at its with holds
    · exact ⟨Option.some.inj (its.symm.trans locked), holds⟩
    · simp [unlocked] at its
  have callers : CallersOk (state.setLock kind lock) := related.callers.of_same rfl rfl rfl
  apply related.frame locks
  · apply callers.setCaller
    · intro e its
      split_ifs at its
      · exact kept e (Or.inl its)
      · exact kept e (Or.inr its)
    · intro kind' e target its
      rw [its] at neither
      exact absurd trivial neither
    · intro kind' e its
      rw [its] at neither
      exact absurd trivial neither
  · rfl
  · rfl
  · exact fun e off => ⟨off, rfl⟩

theorem Related.goesOn (related : Related workerThread state abstract) {t : Thread}
    {pc : QueuePc Addr}
    (outside : t = workerThread → ∀ kind, state.lists.worker ≠ .splice kind)
    (locked : ∀ kind, pc.locked = some kind → (state.caller t).locked = some kind)
    (kept : ∀ e, pc.node = some e → (state.caller t).node = some e)
    (loaded : ∀ kind e target, pc = .storeNext kind e target →
      target = state.lists.freeList kind)
    (early : ∀ kind e, pc ≠ .storeHead kind e) :
    Related workerThread (state.setCaller t pc) abstract := by
  apply related.frame
  · exact related.locks.caller_goes_on rfl rfl rfl rfl locked outside
  · apply related.callers.setCaller kept loaded
    exact fun kind e its => absurd its (early kind e)
  · rfl
  · rfl
  · exact fun e off => ⟨off, rfl⟩

theorem Related.storesNext (related : Related workerThread state abstract) {t : Thread}
    {pc : QueuePc Addr} {e : Addr} {target : Option Addr}
    (own : (state.caller t).node = some e) (early : ∀ kind, state.caller t ≠ .storeHead kind e)
    (locked : ∀ kind, pc.locked = some kind → (state.caller t).locked = some kind)
    (kept : ∀ e', pc.node = some e' → e' = e)
    (unloaded : ∀ kind e target, pc ≠ .storeNext kind e target)
    (stored : ∀ kind e', pc = .storeHead kind e' → target = state.lists.freeList kind) :
    Related workerThread ((state.setNext e target).setCaller t pc) abstract := by
  have busy : state.caller t ≠ .idle := by
    intro idle
    simp [idle, QueuePc.node] at own
  have taken := related.callers.inHand t e own
  apply related.frame
  · exact related.locks.caller_goes_on rfl rfl rfl rfl locked (related.locks.outside busy)
  · apply (related.callers.setNext target own early).setCaller
    · rintro e' its
      obtain rfl := kept e' its
      exact own
    · exact fun kind e target its => absurd its (unloaded kind e target)
    · intro kind e' its
      obtain rfl := kept e' (by rw [its]; rfl)
      exact (Function.update_self _ _ _).trans (stored kind e' its)
  · rfl
  · rfl
  · intro e' off
    have distinct : e' ≠ e := by
      rintro rfl
      exact absurd (taken.symm.trans off) (by simp)
    exact ⟨off, Function.update_of_ne distinct _ _⟩

theorem Related.takes (related : Related workerThread state abstract) {t : Thread}
    {pc : QueuePc Addr} {e : Addr} (unused : state.Unused e)
    (outside : t = workerThread → ∀ kind, state.lists.worker ≠ .splice kind)
    (locked : ∀ kind, pc.locked = some kind → (state.caller t).locked = some kind)
    (takes : pc.node = some e)
    (early : ∀ kind target, pc ≠ .storeNext kind e target ∧ pc ≠ .storeHead kind e) :
    Related workerThread ((state.takeInHand e).setCaller t pc) abstract := by
  apply related.frame
  · exact related.locks.caller_goes_on rfl rfl rfl rfl locked outside
  · exact related.callers.takeInHand unused takes early
  · rfl
  · rfl
  · intro e' off
    refine ⟨?_, rfl⟩
    by_cases same : e' = e
    · subst same
      exact unused.2
    · simpa [LockedLists.setCaller, LockedLists.takeInHand, same] using off

/-! ## Calls take effect -/

section Commit

variable {after : CallLists Addr} {kind : CallKind} {e : Addr}

omit [DecidableEq Addr] in
theorem SpliceKnows.transfer {pc : SplicePc Addr} (knows : SpliceKnows abstract kind pc)
    (free : after.freeList kind = abstract.freeList kind)
    (list : after.workerList kind = abstract.workerList kind)
    (chains : ∀ addrs, Chain abstract.next (abstract.workerList kind) addrs →
      Chain after.next (abstract.workerList kind) addrs) : SpliceKnows after kind pc := by
  cases pc with
  | getTailLoop ptr ePrev first =>
      obtain ⟨full, listed, same, before, rest, chain, here, last⟩ := knows
      simp only [SpliceKnows, free, list]
      exact ⟨full, listed, same, before, rest, chains _ chain, here, last⟩
  | storeTail ePrev first =>
      obtain ⟨full, listed, same, addrs, chain, last⟩ := knows
      simp only [SpliceKnows, free, list]
      exact ⟨full, listed, same, addrs, chains _ chain, last⟩
  | lock | testFree | unlock => trivial
  | testWorker | loadFree | storeWorker | loadFirst | getTail | clearFree =>
      simpa only [SpliceKnows, free, list] using knows

theorem absent_of_unowned (reachable : Reachable (· = callListsInit) callListsStep abstract)
    (unowned : abstract.owner e = none) {kind : CallKind} {addrs : List Addr}
    (chain : Chain abstract.next (abstract.workerList kind) addrs) : e ∉ addrs := by
  obtain ⟨free, worker, _, links, _⟩ := listsOk_of_reachable reachable
  obtain rfl := chain.unique (links.workerChain kind)
  exact fun member => links.fresh unowned kind (List.mem_append_right _ member)

omit [DecidableEq Thread] in
/-- A call puts its node in front of a list that the worker is not splicing. -/
theorem WorkerShows.call (shows : WorkerShows state abstract)
    (reachable : Reachable (· = callListsInit) callListsStep abstract)
    (apart : ∀ kind', state.lists.worker = .splice kind' → state.splice ≠ .lock → kind' ≠ kind)
    (called : callQueueStep abstract kind e = some after)
    (worker : next.lists.worker = state.lists.worker) (splice : next.splice = state.splice)
    (memory : ∀ field list, MemoryIs state field list →
      MemoryIs next (Function.update field e (abstract.freeList kind)) list) :
    WorkerShows next after := by
  obtain ⟨unowned, rfl⟩ := callQueueStep_eq called
  have absent : ∀ {kind' addrs}, Chain abstract.next (abstract.workerList kind') addrs →
      e ∉ addrs := fun chain => absent_of_unowned reachable unowned chain
  unfold WorkerShows at shows ⊢
  rw [worker, splice]
  cases pc : state.lists.worker with
  | splice kind' =>
      rw [pc] at shows
      obtain ⟨knows, before⟩ := shows
      cases at_ : state.splice with
      | lock =>
          rw [at_] at before
          exact ⟨trivial, before.1, memory _ _ before.2⟩
      | testFree | testWorker | loadFree | storeWorker | loadFirst | getTail | getTailLoop
      | storeTail | unlock =>
          have other : kind' ≠ kind := apart kind' pc (by simp [at_])
          rw [at_] at knows before
          refine ⟨knows.transfer (Function.update_of_ne other _ _) rfl ?_, before.1,
            memory _ _ before.2⟩
          exact fun addrs chain => chain.update (absent chain) _
      | clearFree =>
          have other : kind' ≠ kind := apart kind' pc (by simp [at_])
          rw [at_] at knows before
          refine ⟨knows.transfer (Function.update_of_ne other _ _) rfl ?_, before.1, ?_⟩
          · exact fun addrs chain => chain.update (absent chain) _
          · simp only [Function.update_of_ne other]
            rcases before.2 with ⟨empty, left⟩ | ⟨kept, last, chain, left⟩
            · exact Or.inl ⟨empty, memory _ _ left⟩
            · right
              have distinct : last ≠ e := by
                rintro rfl
                exact absent chain (by simp)
              refine ⟨kept, last, chain.update (absent chain) _, ?_⟩
              rw [Function.update_comm distinct.symm]
              exact memory _ _ left
  | testFree | testWorker | forEach | lookup | deinit | unlink | freeNode | callFunc | func =>
      rw [pc] at shows
      exact ⟨shows.1, memory _ _ shows.2⟩

end Commit

theorem Related.storesHead (related : Related workerThread state abstract) {t : Thread}
    {kind : CallKind} {e : Addr} (pc : state.caller t = .storeHead kind e)
    (stepped : callerListsStep state t = some next) :
    ∃ after, callListsStep abstract (.call kind e) = some after ∧
      Related workerThread next after := by
  have locked : (state.caller t).locked = some kind := by
    rw [pc]
    rfl
  have taken : state.inHand e = true := by
    apply related.callers.inHand t e
    rw [pc]
    rfl
  have unowned : abstract.owner e = none := by
    rw [← related.data.owner]
    exact related.callers.unowned e taken
  obtain ⟨after, called⟩ : ∃ after, callListsStep abstract (.call kind e) = some after := by
    simp [callListsStep, callQueueStep, unowned]
  have callers := related.callers.storesHead related.locks pc stepped
  have linked := related.callers.stored t kind e pc
  simp only [callerListsStep, pc, Option.some.injEq] at stepped
  have reachable := related.reachable.step_of called
  have shows : WorkerShows next after := by
    apply related.worker.call related.reachable ?_ called
    · subst stepped
      rfl
    · subst stepped
      rfl
    · intro field list memory
      subst stepped
      refine ⟨fun e' off => ?_, memory.workerList⟩
      by_cases same : e' = e
      · subst same
        rw [Function.update_self, ← related.data.freeList]
        exact linked
      · rw [Function.update_of_ne same]
        apply memory.next e'
        simpa [LockedLists.setCaller, same] using off
    · rintro kind' its inside rfl
      exact related.locks.not_caller its inside locked
  obtain ⟨_, rfl⟩ := callQueueStep_eq called
  subst stepped
  refine ⟨_, called, reachable, ?_, callers, ?_, shows⟩
  · apply related.locks.caller_goes_on (t := t)
    · rfl
    · rfl
    · rfl
    · rfl
    · rintro kind' its
      exact locked.trans its
    · apply related.locks.outside
      rw [pc]
      simp
  · obtain ⟨freeList, obj, owner, registered, invocations, destroyed⟩ := related.data
    constructor
    · simp only [LockedLists.setCaller, freeList]
    · simp only [LockedLists.setCaller, obj, registered]
    · simp only [LockedLists.setCaller, owner]
    · simp only [LockedLists.setCaller, registered]
    · exact invocations
    · exact destroyed

end LightRcu
