import LightRcu.LockedListsCalls

/-!
# Splices under the list locks

Outside of its splices the worker does the same in a heap where calls are under
way.  A splice takes effect when it clears the head of the free list: up to then
nobody but the worker can tell that the tail of its own list has changed.
-/

namespace LightRcu

open Execution

variable {Thread Addr : Type*} [DecidableEq Thread] [DecidableEq Addr]
  {state next : LockedLists Thread Addr} {abstract : CallLists Addr} {workerThread : Thread}

/-! ## The worker outside of its splices -/

/-- An unlink is the same in two heaps that agree on the list. -/
theorem lrcuListUnlinkNext_congr {field field' : Addr → Option Addr} {head : Option Addr}
    {addrs : List Addr} {index : Nat} {n : Addr} {nPrev : Option Addr}
    (chain : Chain field head addrs) (visits : VisitsAt addrs index n nPrev)
    (agree : ∀ e ∈ addrs, field' e = field e) :
    ∃ left left' head', lrcuListUnlinkNext field head nPrev = some (left, head') ∧
      lrcuListUnlinkNext field' head nPrev = some (left', head') ∧
        (∀ e, e ∉ addrs → left e = field e ∧ left' e = field' e) ∧
          ∀ e, field' e = field e → left' e = left e := by
  obtain ⟨found, rfl⟩ := visits
  have same := agree n (List.mem_of_getElem? found)
  have absent : ∀ {e other}, e ∉ addrs → other ∈ addrs → e ≠ other := by
    rintro e _ outside member rfl
    exact outside member
  cases index with
  | zero =>
      obtain rfl : head = some n := chain.head_eq.trans found
      refine ⟨_, _, field n, rfl, by rw [← same]; rfl, fun e outside => ?_, fun e equal => ?_⟩
      · have other := absent outside (List.mem_of_getElem? found)
        exact ⟨Function.update_of_ne other _ _, Function.update_of_ne other _ _⟩
      · by_cases here : e = n
        · subst here
          simp only [Function.update_self]
        · simpa only [Function.update_of_ne here] using equal
  | succ before =>
      obtain ⟨inside, _⟩ := List.getElem?_eq_some_iff.mp found
      have previous := List.getElem?_eq_getElem (Nat.lt_of_succ_lt inside)
      have behind : field addrs[before] = some n := (chain.next_eq previous).trans found
      have behind' : field' addrs[before] = some n :=
        (agree _ (List.mem_of_getElem? previous)).trans behind
      refine ⟨Function.update (Function.update field n none) addrs[before] (field n),
        Function.update (Function.update field' n none) addrs[before] (field' n), head, ?_, ?_,
        fun e outside => ?_, fun e equal => ?_⟩
      · simp only [previousAt, previous, lrcuListUnlinkNext, behind, Option.map_some]
      · simp only [previousAt, previous, lrcuListUnlinkNext, behind', Option.map_some]
      · have other := absent outside (List.mem_of_getElem? found)
        have other' := absent outside (List.mem_of_getElem? previous)
        simp only [Function.update_of_ne other, Function.update_of_ne other', and_self]
      · by_cases here : e = addrs[before]
        · subst here
          simpa only [Function.update_self] using same
        · by_cases here' : e = n
          · subst here'
            simp only [Function.update_of_ne here, Function.update_self]
          · simpa only [Function.update_of_ne here, Function.update_of_ne here'] using equal

/-- What a step of the worker does with memory that is not on its lists. -/
structure SameSteps (abstract after : CallLists Addr) (field field' : Addr → Option Addr) :
    Prop where
  freeList : after.freeList = abstract.freeList
  unowned : ∀ e, abstract.owner e = none →
    after.next e = abstract.next e ∧ field' e = field e ∧ after.owner e = none
  agree : ∀ e, field e = abstract.next e → field' e = after.next e

/-- Outside of its splices, the worker does the same in another heap that agrees
on its lists. -/
theorem workerListsStep_matches {field : Addr → Option Addr}
    (reachable : Reachable (· = callListsInit) callListsStep abstract)
    (plain : ∀ kind, abstract.worker ≠ .splice kind)
    (agree : ∀ e kind, abstract.owner e = some kind → field e = abstract.next e) (held : Bool) :
    ∃ after field', callListsStep abstract (.worker held) = some after ∧
      workerListsStep { abstract with next := field } held = some { after with next := field' } ∧
        SameSteps abstract after field field' := by
  obtain ⟨free, worker, index, links, _⟩ := listsOk_of_reachable reachable
  have iteration := links.iteration
  have onList : ∀ kind, ∀ e ∈ worker kind, field e = abstract.next e := fun kind e member =>
    agree e kind (links.owned kind e (List.mem_append_right _ member))
  have kept : ∀ {after : CallLists Addr}, after.next = abstract.next →
      after.freeList = abstract.freeList →
      (∀ e, abstract.owner e = none → after.owner e = none) →
        SameSteps abstract after field field := by
    intro after next freeList owner
    refine ⟨freeList, fun e unowned => ⟨by rw [next], rfl, owner e unowned⟩, fun e same => ?_⟩
    rw [next]
    exact same
  have released : ∀ {n}, ∀ e, abstract.owner e = none →
      Function.update abstract.owner n none e = none := by
    intro n e unowned
    by_cases here : e = n
    · subst here
      exact Function.update_self _ _ _
    · rwa [Function.update_of_ne here]
  simp only [callListsStep]
  cases pc : abstract.worker with
  | splice kind => exact absurd pc (plain kind)
  | testFree kind =>
      simp only [workerListsStep, pc]
      split_ifs
      · exact ⟨_, field, rfl, rfl, kept rfl rfl fun _ unowned => unowned⟩
      · exact ⟨_, field, rfl, rfl, kept rfl rfl fun _ unowned => unowned⟩
  | testWorker =>
      simp only [workerListsStep, pc]
      split_ifs
      · exact ⟨_, field, rfl, rfl, kept rfl rfl fun _ unowned => unowned⟩
      · exact ⟨_, field, rfl, rfl, kept rfl rfl fun _ unowned => unowned⟩
  | forEach kind n nPrev =>
      rw [pc] at iteration
      have chain := (links.workerChain kind).congr (onList kind)
      simp only [workerListsStep, pc, lrcuListForEachGetN_spec chain iteration,
        lrcuListForEachGetN_spec (links.workerChain kind) iteration]
      cases (worker kind)[index]? with
      | none => exact ⟨_, field, rfl, rfl, kept rfl rfl fun _ unowned => unowned⟩
      | some n => exact ⟨_, field, rfl, rfl, kept rfl rfl fun _ unowned => unowned⟩
  | lookup kind n nPrev =>
      simp only [workerListsStep, pc]
      split_ifs
      · exact ⟨_, field, rfl, rfl, kept rfl rfl fun _ unowned => unowned⟩
      · cases kind with
        | list => exact ⟨_, field, rfl, rfl, kept rfl rfl fun _ unowned => unowned⟩
        | hlist => exact ⟨_, field, rfl, rfl, kept rfl rfl fun _ unowned => unowned⟩
  | unlink kind n nPrev =>
      rw [pc] at iteration
      obtain ⟨left, left', head, unlinked, unlinked', frame, same⟩ :=
        lrcuListUnlinkNext_congr (links.workerChain kind) iteration (onList kind)
      have outside : ∀ e, abstract.owner e = none → e ∉ worker kind :=
        fun e unowned member => links.fresh unowned kind (List.mem_append_right _ member)
      simp only [workerListsStep, pc, unlinked, unlinked', Option.map_some]
      cases kind with
      | list =>
          refine ⟨_, left', rfl, rfl, rfl, fun e unowned => ?_, same⟩
          obtain ⟨here, there⟩ := frame e (outside e unowned)
          exact ⟨here, there, unowned⟩
      | hlist =>
          refine ⟨_, left', rfl, rfl, rfl, fun e unowned => ?_, same⟩
          obtain ⟨here, there⟩ := frame e (outside e unowned)
          exact ⟨here, there, unowned⟩
  | deinit | func =>
      simp only [workerListsStep, pc]
      exact ⟨_, field, rfl, rfl, kept rfl rfl fun _ unowned => unowned⟩
  | freeNode | callFunc =>
      simp only [workerListsStep, pc]
      exact ⟨_, field, rfl, rfl, kept rfl rfl released⟩

omit [DecidableEq Thread] in
theorem WorkerShows.settled (shows : WorkerShows state abstract)
    (plain : ∀ kind, state.lists.worker ≠ .splice kind) :
    Settled state abstract state.lists.worker := by
  unfold WorkerShows at shows
  split at shows
  next kind its => exact absurd its (plain kind)
  next => exact shows

omit [DecidableEq Thread] in
theorem Settled.shows (settled : Settled state abstract state.lists.worker)
    (resting : state.splice = .lock) : WorkerShows state abstract := by
  unfold WorkerShows
  split
  next kind its =>
    rw [its] at settled
    rw [resting]
    exact ⟨trivial, settled⟩
  next => exact settled

omit [DecidableEq Addr] in
theorem SameData.eq {lists : CallLists Addr} (data : SameData lists abstract)
    (worker : lists.worker = abstract.worker) (list : lists.workerList = abstract.workerList) :
    lists = { abstract with next := lists.next } := by
  obtain ⟨freeList, obj, owner, registered, invocations, destroyed⟩ := data
  cases lists
  cases abstract
  simp_all

omit [DecidableEq Thread] in
/-- What is in use by a call is not in hand. -/
theorem Related.agree (related : Related workerThread state abstract)
    {field : Addr → Option Addr} {list : CallKind → Option Addr}
    (memory : MemoryIs state field list) (e : Addr) (kind : CallKind)
    (owned : abstract.owner e = some kind) : state.lists.next e = field e := by
  apply memory.next
  by_contra taken
  have unowned := related.callers.unowned e (by simpa using taken)
  rw [related.data.owner, owned] at unowned
  simp at unowned

omit [DecidableEq Thread] in
theorem Related.worksOn (related : Related workerThread state abstract)
    (idle : state.caller workerThread = .idle)
    (plain : ∀ kind, state.lists.worker ≠ .splice kind) (held : Bool) :
    ∃ lists after, workerListsStep state.lists held = some lists ∧
      callListsStep abstract (.worker held) = some after ∧
        Related workerThread { state with lists := lists } after := by
  obtain ⟨worker, memory⟩ := related.worker.settled plain
  have resting := related.locks.resting plain
  obtain ⟨after, field, matched, stepped, same⟩ := workerListsStep_matches related.reachable
    (fun kind its => plain kind (worker.symm.trans its)) (related.agree memory) held
  rw [← related.data.eq worker.symm memory.workerList] at stepped
  refine ⟨_, after, stepped, matched, related.reachable.step_of matched, ?_, ?_,
    ⟨rfl, rfl, rfl, rfl, rfl, rfl⟩, ?_⟩
  · apply related.locks.worker_goes_on idle
    · rfl
    · rfl
    · exact fun kind its inside => absurd resting inside
    · exact fun _ => resting
  · apply related.callers.worker
    · rfl
    · rfl
    · intro e _ unowned
      rw [related.data.owner] at unowned
      exact (same.unowned e unowned).2
    · intro t kind _
      exact (congrFun same.freeList kind).trans (congrFun related.data.freeList kind).symm
  · apply Settled.shows
    · exact ⟨rfl, fun e off => same.agree e (memory.next e off), rfl⟩
    · exact resting

/-! ## Splices -/

section Splice

variable {kind : CallKind} {after : CallLists Addr}

theorem callListsStep_splice {field : Addr → Option Addr} {lh : Option Addr}
    (its : abstract.worker = .splice kind)
    (spliced : lrcuListSplice abstract.next (abstract.registered kind + 1)
      (abstract.workerList kind) (abstract.freeList kind) = some (field, lh, none))
    (held : Bool) :
    callListsStep abstract (.worker held) = some { abstract with
      next := field
      workerList := Function.update abstract.workerList kind lh
      freeList := Function.update abstract.freeList kind none
      worker := .afterSplice kind } := by
  simp only [callListsStep, workerListsStep, its, spliced, Option.map_some]
  cases kind <;> rfl

theorem lrcuListSplice_behind {field : Addr → Option Addr} {fuel : Nat} {lh lt : Option Addr}
    {before : List Addr} {last : Addr} (chain : Chain field lh (before ++ [last]))
    (full : lt ≠ none) (enough : (before ++ [last]).length < fuel) :
    lrcuListSplice field fuel lh lt = some (Function.update field last lt, lh, none) := by
  have listed : lh ≠ none := by
    rintro rfl
    simpa using chain_none.mp chain
  have tail : lrcuListGetTail field fuel lh = some (some last) := by
    rw [lrcuListGetTail, lrcuListGetTailLoop_spec chain enough]
    simp
  simp [lrcuListSplice, full, listed, tail]

omit [DecidableEq Thread] in
theorem Related.inSection (related : Related workerThread state abstract)
    (its : state.lists.worker = .splice kind) (inside : state.splice ≠ .lock)
    (lock : next.lock = state.lock) (caller : next.caller = state.caller)
    (inHand : next.inHand = state.inHand) (worker : next.lists.worker = state.lists.worker)
    (owner : next.lists.owner = state.lists.owner)
    (freeList : ∀ kind', kind' ≠ kind →
      next.lists.freeList kind' = state.lists.freeList kind')
    (taken : ∀ e, state.inHand e = true → next.lists.next e = state.lists.next e)
    (reachable : Reachable (· = callListsInit) callListsStep after)
    (data : SameData next.lists after) (knows : SpliceKnows after kind next.splice)
    (memory : SpliceMemory next after kind next.splice) : Related workerThread next after := by
  rw [its] at worker
  refine ⟨reachable, ?_, ?_, data, ?_⟩
  · apply related.locks.worker_goes_on (related.locks.idle kind its) lock caller
    · rintro kind' its' _
      rw [worker] at its'
      exact ⟨its.trans its', inside⟩
    · exact fun plain => absurd worker (plain kind)
  · apply related.callers.worker inHand caller
    · intro e held unowned
      rw [owner]
      exact ⟨taken e held, unowned⟩
    · rintro t kind' locked
      apply freeList
      rintro rfl
      exact related.locks.not_caller its inside locked
  · unfold WorkerShows
    rw [worker]
    exact ⟨knows, memory⟩

omit [DecidableEq Thread] in
theorem Related.moves (related : Related workerThread state abstract)
    (its : state.lists.worker = .splice kind) (inside : state.splice ≠ .lock)
    {pc : SplicePc Addr} (knows : SpliceKnows abstract kind pc)
    (memory : SpliceMemory { state with splice := pc } abstract kind pc) :
    Related workerThread { state with splice := pc } abstract := by
  apply related.inSection its inside
  · rfl
  · rfl
  · rfl
  · rfl
  · rfl
  · exact fun _ _ => rfl
  · exact fun _ _ => rfl
  · exact related.reachable
  · exact related.data
  · exact knows
  · exact memory

omit [DecidableEq Thread] in
theorem Related.splicesNothing (related : Related workerThread state abstract)
    (its : state.lists.worker = .splice kind) (inside : state.splice ≠ .lock)
    (before : Settled state abstract (.splice kind)) (empty : abstract.freeList kind = none)
    (held : Bool) :
    ∃ after, callListsStep abstract (.worker held) = some after ∧
      Related workerThread { state with splice := .unlock } after := by
  obtain ⟨worker, memory⟩ := before
  have nothing : lrcuListSplice abstract.next (abstract.registered kind + 1)
      (abstract.workerList kind) (abstract.freeList kind) =
        some (abstract.next, abstract.workerList kind, none) := by
    simp [lrcuListSplice, empty]
  have spliced := callListsStep_splice worker nothing held
  obtain ⟨freeList, obj, owner, registered, invocations, destroyed⟩ := related.data
  refine ⟨_, spliced, ?_⟩
  apply related.inSection its inside
  · rfl
  · rfl
  · rfl
  · rfl
  · rfl
  · exact fun _ _ => rfl
  · exact fun _ _ => rfl
  · exact related.reachable.step_of spliced
  · refine ⟨?_, obj, owner, registered, invocations, destroyed⟩
    rw [← empty, Function.update_eq_self]
    exact freeList
  · trivial
  · refine ⟨rfl, memory.next, ?_⟩
    rw [Function.update_eq_self]
    exact memory.workerList

omit [DecidableEq Thread] in
theorem Related.clearsFree (related : Related workerThread state abstract)
    (its : state.lists.worker = .splice kind) (inside : state.splice ≠ .lock)
    (before : Spliced state abstract kind) (full : abstract.freeList kind ≠ none)
    (held : Bool) :
    ∃ after, callListsStep abstract (.worker held) = some after ∧
      Related workerThread { state with
        lists := { state.lists with freeList := Function.update state.lists.freeList kind none }
        splice := .unlock } after := by
  obtain ⟨worker, memory⟩ := before
  obtain ⟨field, lh, spliced, memory⟩ : ∃ field lh,
      lrcuListSplice abstract.next (abstract.registered kind + 1) (abstract.workerList kind)
        (abstract.freeList kind) = some (field, lh, none) ∧
      MemoryIs state field (Function.update abstract.workerList kind lh) := by
    rcases memory with ⟨empty, memory⟩ | ⟨kept, last, chain, memory⟩
    · refine ⟨abstract.next, abstract.freeList kind, ?_, memory⟩
      simp [lrcuListSplice, full, empty]
    · obtain ⟨free, list, _, links, _⟩ := listsOk_of_reachable related.reachable
      have enough : (kept ++ [last]).length < abstract.registered kind + 1 := by
        rw [chain.unique (links.workerChain kind)]
        have counted := links.counted kind
        rw [List.length_append] at counted
        omega
      refine ⟨_, _, lrcuListSplice_behind chain full enough, ?_⟩
      rw [Function.update_eq_self]
      exact memory
  have stepped := callListsStep_splice worker spliced held
  obtain ⟨freeList, obj, owner, registered, invocations, destroyed⟩ := related.data
  refine ⟨_, stepped, ?_⟩
  apply related.inSection its inside
  · rfl
  · rfl
  · rfl
  · rfl
  · rfl
  · exact fun _ other => Function.update_of_ne other _ _
  · exact fun _ _ => rfl
  · exact related.reachable.step_of stepped
  · exact ⟨by rw [freeList], obj, owner, registered, invocations, destroyed⟩
  · trivial
  · exact ⟨rfl, memory.next, memory.workerList⟩

omit [DecidableEq Thread] in
theorem Related.not_inHand (related : Related workerThread state abstract) {addrs : List Addr}
    {e : Addr} (chain : Chain abstract.next (abstract.workerList kind) addrs)
    (member : e ∈ addrs) : state.inHand e = false := by
  by_contra taken
  have unowned := related.callers.unowned e (by simpa using taken)
  rw [related.data.owner] at unowned
  exact absent_of_unowned related.reachable unowned chain member

theorem Related.locks_list (related : Related workerThread state abstract)
    (its : state.lists.worker = .splice kind) (outside : state.splice = .lock)
    {lock : SpinState Thread} (access : LockAccess workerThread (state.lock kind) lock)
    (few : AtMostContend 65535 lock) :
    Related workerThread { state.setLock kind lock with
      splice := if (lock.thread workerThread).holds then .testFree else .lock } abstract := by
  have before : Settled state abstract (.splice kind) := by
    have shows := related.worker
    unfold WorkerShows at shows
    rw [its, outside] at shows
    exact shows.2
  refine ⟨related.reachable, ?_, related.callers.of_same rfl rfl rfl, related.data, ?_⟩
  · apply related.locks.worker_access access few (related.locks.idle kind its)
    · rfl
    · rfl
    · intro kind' its' inside
      have same : state.lists.worker = .splice kind' := its'
      rw [its] at same
      obtain rfl := ListsPc.splice.inj same
      refine ⟨rfl, ?_⟩
      by_contra waits
      simp [waits] at inside
    · exact fun plain => absurd its (plain kind)
  · have settled : Settled { state.setLock kind lock with
        splice := if (lock.thread workerThread).holds then .testFree else .lock } abstract
          (.splice kind) := ⟨before.1, before.2.next, before.2.workerList⟩
    have worker : (state.setLock kind lock).lists.worker = .splice kind := its
    unfold WorkerShows
    simp only [worker]
    split_ifs
    · exact ⟨trivial, before.1, before.2.next, before.2.workerList⟩
    · exact ⟨trivial, before.1, before.2.next, before.2.workerList⟩

theorem Related.unlocks_list (related : Related workerThread state abstract)
    (its : state.lists.worker = .splice kind) (done : state.splice = .unlock)
    {lock : SpinState Thread} (access : LockAccess workerThread (state.lock kind) lock)
    (few : AtMostContend 65535 lock) :
    Related workerThread (if (lock.thread workerThread).holds then state.setLock kind lock
      else
        { state.setLock kind lock with
          lists := { state.lists with worker := .afterSplice kind }
          splice := .lock }) abstract := by
  have before : Settled state abstract (.afterSplice kind) := by
    have shows := related.worker
    unfold WorkerShows at shows
    rw [its, done] at shows
    exact shows.2
  have plain : ∀ kind', (ListsPc.afterSplice kind : ListsPc Addr) ≠ .splice kind' := by
    cases kind <;> simp [ListsPc.afterSplice]
  split_ifs with holds
  · refine ⟨related.reachable, ?_, related.callers.of_same rfl rfl rfl, related.data, ?_⟩
    · apply related.locks.worker_access access few (related.locks.idle kind its)
      · rfl
      · rfl
      · intro kind' its' _
        have same : state.lists.worker = .splice kind' := its'
        rw [its] at same
        exact ⟨(ListsPc.splice.inj same).symm, holds⟩
      · exact fun plain => absurd its (plain kind)
    · have worker : (state.setLock kind lock).lists.worker = .splice kind := its
      have splice : (state.setLock kind lock).splice = .unlock := done
      unfold WorkerShows
      rw [worker, splice]
      exact ⟨trivial, before.1, before.2.next, before.2.workerList⟩
  · refine ⟨related.reachable, ?_, ?_, ?_, ?_⟩
    · apply related.locks.worker_access access few (related.locks.idle kind its)
      · rfl
      · rfl
      · exact fun kind' its' _ => absurd its' (plain kind')
      · exact fun _ => rfl
    · apply related.callers.worker
      · rfl
      · rfl
      · exact fun _ _ unowned => ⟨rfl, unowned⟩
      · exact fun _ _ _ => rfl
    · obtain ⟨freeList, obj, owner, registered, invocations, destroyed⟩ := related.data
      exact ⟨freeList, obj, owner, registered, invocations, destroyed⟩
    · apply Settled.shows
      · exact ⟨before.1, before.2.next, before.2.workerList⟩
      · rfl

omit [DecidableEq Thread] in
theorem Related.storesWorker (related : Related workerThread state abstract)
    (its : state.lists.worker = .splice kind) (inside : state.splice ≠ .lock)
    (before : Settled state abstract (.splice kind)) (full : abstract.freeList kind ≠ none)
    (empty : abstract.workerList kind = none) :
    Related workerThread { state with
      lists := { state.lists with
        workerList := Function.update state.lists.workerList kind (abstract.freeList kind) }
      splice := .clearFree } abstract := by
  apply related.inSection its inside
  · rfl
  · rfl
  · rfl
  · rfl
  · rfl
  · exact fun _ _ => rfl
  · exact fun _ _ => rfl
  · exact related.reachable
  · obtain ⟨freeList, obj, owner, registered, invocations, destroyed⟩ := related.data
    exact ⟨freeList, obj, owner, registered, invocations, destroyed⟩
  · exact full
  · refine ⟨before.1, Or.inl ⟨empty, before.2.next, ?_⟩⟩
    rw [← before.2.workerList]

omit [DecidableEq Thread] in
theorem Related.storesTail (related : Related workerThread state abstract)
    (its : state.lists.worker = .splice kind) (inside : state.splice ≠ .lock)
    (before : Settled state abstract (.splice kind)) (full : abstract.freeList kind ≠ none)
    {kept : List Addr} {last : Addr}
    (chain : Chain abstract.next (abstract.workerList kind) (kept ++ [last])) :
    Related workerThread { state.setNext last (abstract.freeList kind) with
      splice := .clearFree } abstract := by
  have off : state.inHand last = false := related.not_inHand chain (by simp)
  apply related.inSection its inside
  · rfl
  · rfl
  · rfl
  · rfl
  · rfl
  · exact fun _ _ => rfl
  · intro e taken
    refine Function.update_of_ne ?_ _ _
    rintro rfl
    simp [off] at taken
  · exact related.reachable
  · obtain ⟨freeList, obj, owner, registered, invocations, destroyed⟩ := related.data
    exact ⟨freeList, obj, owner, registered, invocations, destroyed⟩
  · exact full
  · refine ⟨before.1, Or.inr ⟨kept, last, chain, fun e off' => ?_, before.2.workerList⟩⟩
    by_cases same : e = last
    · subst same
      simp [LockedLists.setNext]
    · simpa [LockedLists.setNext, same] using before.2.next e off'

omit [DecidableEq Thread] in
/-- The walk to the tail goes on behind a node of the list. -/
theorem Related.walksOn (related : Related workerThread state abstract)
    (before : Settled state abstract (.splice kind)) {kept rest : List Addr} {addr : Addr}
    (chain : Chain abstract.next (abstract.workerList kind) (kept ++ addr :: rest)) :
    ∃ before rest, Chain abstract.next (abstract.workerList kind) (before ++ rest) ∧
      state.lists.next addr = rest.head? ∧ some addr = before.getLast? := by
  have member : addr ∈ kept ++ addr :: rest := by simp
  have off := related.not_inHand chain member
  rw [show kept ++ addr :: rest = (kept ++ [addr]) ++ rest by simp] at chain
  refine ⟨kept ++ [addr], rest, chain, ?_, by simp⟩
  rw [before.2.next addr off]
  simpa using chain.behind

theorem Related.splices (related : Related workerThread state abstract)
    (its : state.lists.worker = .splice kind) (few : FewContend 65535 next) (held : Bool)
    (stepped : spliceStep state workerThread kind = some next) :
    Related workerThread next abstract ∨
      ∃ after, callListsStep abstract (.worker held) = some after ∧
        Related workerThread next after := by
  have shows := related.worker
  unfold WorkerShows at shows
  rw [its] at shows
  obtain ⟨knows, before⟩ := shows
  unfold spliceStep at stepped
  -- a step without a store
  have moves : ∀ {pc : SplicePc Addr}, state.splice ≠ .lock → SpliceKnows abstract kind pc →
      Settled state abstract (.splice kind) →
      SpliceMemory { state with splice := pc } abstract kind pc =
        Settled { state with splice := pc } abstract (.splice kind) →
      Related workerThread { state with splice := pc } abstract := by
    intro pc inside knows settled same
    apply related.moves its inside knows
    rw [same]
    exact ⟨settled.1, settled.2.next, settled.2.workerList⟩
  cases at_ : state.splice with
  | lock =>
      simp only [at_, Option.map_eq_some_iff] at stepped
      obtain ⟨lock, locked, rfl⟩ := stepped
      have fewer : AtMostContend 65535 lock := by
        simpa [LockedLists.setLock] using few kind
      exact Or.inl (related.locks_list its at_ (Or.inl locked) fewer)
  | unlock =>
      simp only [at_, Option.map_eq_some_iff] at stepped
      obtain ⟨lock, unlocked, rfl⟩ := stepped
      have fewer : AtMostContend 65535 lock := by
        have few := few kind
        split_ifs at few <;> simpa [LockedLists.setLock] using few
      exact Or.inl (related.unlocks_list its at_ (Or.inr unlocked) fewer)
  | testFree =>
      have inside : state.splice ≠ .lock := by simp [at_]
      simp only [at_, Option.some.injEq] at stepped
      rw [at_] at before
      rw [related.data.freeList] at stepped
      split_ifs at stepped with empty
      · subst stepped
        exact Or.inr (related.splicesNothing its inside before empty held)
      · subst stepped
        exact Or.inl (moves inside empty before rfl)
  | testWorker =>
      have inside : state.splice ≠ .lock := by simp [at_]
      simp only [at_, Option.some.injEq] at stepped
      rw [at_] at knows before
      rw [before.2.workerList] at stepped
      split_ifs at stepped with empty
      · subst stepped
        exact Or.inl (moves inside ⟨knows, empty⟩ before rfl)
      · subst stepped
        exact Or.inl (moves inside ⟨knows, empty⟩ before rfl)
  | loadFree | loadFirst =>
      have inside : state.splice ≠ .lock := by simp [at_]
      simp only [at_, Option.some.injEq] at stepped
      rw [at_] at knows before
      rw [related.data.freeList] at stepped
      subst stepped
      exact Or.inl (moves inside ⟨knows.1, knows.2, rfl⟩ before rfl)
  | storeWorker first =>
      have inside : state.splice ≠ .lock := by simp [at_]
      simp only [at_, Option.some.injEq] at stepped
      rw [at_] at knows before
      obtain ⟨full, empty, rfl⟩ := knows
      subst stepped
      exact Or.inl (related.storesWorker its inside before full empty)
  | getTail first =>
      have inside : state.splice ≠ .lock := by simp [at_]
      simp only [at_, Option.some.injEq] at stepped
      rw [at_] at knows before
      obtain ⟨full, listed, same⟩ := knows
      obtain ⟨_, worker, _, links, _⟩ := listsOk_of_reachable related.reachable
      have chain := links.workerChain kind
      rw [before.2.workerList] at stepped
      subst stepped
      refine Or.inl (moves inside ⟨full, listed, same, [], worker kind, chain, ?_, rfl⟩ before rfl)
      rw [chain.head_eq, List.head?_eq_getElem?]
  | getTailLoop e ePrev first =>
      have inside : state.splice ≠ .lock := by simp [at_]
      rw [at_] at knows before
      obtain ⟨full, listed, same, kept, rest, chain, here, last⟩ := knows
      cases rest with
      | nil =>
          obtain rfl : e = none := here
          simp only [at_, Option.some.injEq] at stepped
          subst stepped
          rw [List.append_nil] at chain
          exact Or.inl (moves inside ⟨full, listed, same, kept, chain, last⟩ before rfl)
      | cons addr rest =>
          obtain rfl : e = some addr := here
          simp only [at_, Option.some.injEq] at stepped
          subst stepped
          exact Or.inl (moves inside ⟨full, listed, same, related.walksOn before chain⟩ before rfl)
  | storeTail ePrev first =>
      have inside : state.splice ≠ .lock := by simp [at_]
      rw [at_] at knows before
      obtain ⟨full, listed, rfl, addrs, chain, rfl⟩ := knows
      rcases List.eq_nil_or_concat' addrs with rfl | ⟨kept, last, rfl⟩
      · exact absurd chain listed
      · simp only [at_, List.getLast?_concat, Option.some.injEq] at stepped
        subst stepped
        exact Or.inl (related.storesTail its inside before full chain)
  | clearFree =>
      have inside : state.splice ≠ .lock := by simp [at_]
      simp only [at_, Option.some.injEq] at stepped
      rw [at_] at knows before
      subst stepped
      exact Or.inr (related.clearsFree its inside before knows held)

end Splice

end LightRcu
