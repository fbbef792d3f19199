import LightRcu.ListLoops
import LightRcu.LockedListsPlaces

/-!
# Debug checks under the list locks

In builds with `LRCU_LIST_DEBUG` the inserts, the splices and the loops of the
worker end or begin with a walk over their list, which asserts that it is short
and has no cycle.  `lockedListsStep` leaves these assertions out.  They hold while
fewer nodes of a kind are in use than the bound of the check.
-/

namespace LightRcu

open Execution

variable {Thread Addr : Type*} [DecidableEq Thread] [DecidableEq Addr]
  {state next : LockedLists Thread Addr} {abstract : CallLists Addr} {workerThread : Thread}
  {action : LockedListsAction Thread Addr}

/-! ## What is checked -/

namespace LockedLists

/-- The heads of the lists that `lrcu_list_check_loop` walks in a step, in the
memory behind it. -/
def checkedHeads (state : LockedLists Thread Addr) (behind : CallLists Addr) :
    LockedListsAction Thread Addr → List (Option Addr)
  | .caller t =>
      match state.caller t with
      | .storeHead kind _ => [behind.freeList kind]
      | _ => []
  | .worker _ =>
      match state.lists.worker with
      | .splice kind =>
          match state.splice with
          | .getTail _ | .getTailLoop none _ _ => [behind.workerList kind]
          | .clearFree => [behind.workerList kind, behind.freeList kind]
          | _ => []
      | .forEach kind none none => [behind.workerList kind]
      | .unlink kind _ _ => [behind.workerList kind]
      | _ => []
  | .call _ | .callHead _ _ | .malloc _ _ => []

/-- Every check in a step passes.  A walk that is longer than the bound fails in
any case, so it need not be followed any further. -/
def ChecksPass (state next : LockedLists Thread Addr) (action : LockedListsAction Thread Addr) :
    Prop :=
  ∀ head ∈ state.checkedHeads next.lists action,
    lrcuListCheckLoop true lrcuListCheckLoopDepth (next.lists.next, head) = true

/-- Fewer nodes of either kind than the limit are queued, or unlinked and not yet
freed. -/
def FewInUse (limit : Nat) (state : LockedLists Thread Addr) : Prop :=
  ∀ kind (nodes : List Addr), nodes.Nodup →
    (∀ e ∈ nodes, state.lists.owner e = some kind) → nodes.length < limit

omit [DecidableEq Thread] [DecidableEq Addr] in
theorem fewInUse_of_card [Fintype Addr] {limit : Nat} (card : Fintype.card Addr < limit)
    (state : LockedLists Thread Addr) : FewInUse limit state :=
  fun _ _ distinct _ => distinct.length_le_card.trans_lt card

omit [DecidableEq Thread] in
theorem FewInUse.check_passes (few : state.FewInUse lrcuListCheckLoopDepth)
    {head : Option Addr} {kind : CallKind} {addrs : List Addr}
    (chain : Chain state.lists.next head addrs)
    (owned : ∀ e ∈ addrs, state.lists.owner e = some kind) :
    lrcuListCheckLoop true lrcuListCheckLoopDepth (state.lists.next, head) = true := by
  have short : addrs.length < lrcuListCheckLoopDepth := few kind addrs chain.nodup owned
  rw [lrcuListCheckLoop_eq true chain short]
  simpa using short

end LockedLists

/-! ## The lists behind a step -/

omit [DecidableEq Thread] in
/-- The free lists are as in the system of whole sections: a splice under way
stores to no node of theirs. -/
theorem Related.freeChain (related : Related workerThread state abstract) (kind : CallKind) :
    ∃ addrs, Chain state.lists.next (state.lists.freeList kind) addrs ∧
      ∀ e ∈ addrs, state.lists.owner e = some kind := by
  obtain ⟨free, worker, _, links, _⟩ := listsOk_of_reachable related.reachable
  have owned : ∀ e ∈ free kind, abstract.owner e = some kind :=
    fun e member => links.owned kind e (List.mem_append_left _ member)
  have carries : ∀ {field list}, MemoryIs state field list →
      Chain field (abstract.freeList kind) (free kind) →
      Chain state.lists.next (state.lists.freeList kind) (free kind) := by
    intro field list memory chain
    rw [related.data.freeList]
    exact chain.congr fun e member => related.agree memory e kind (owned e member)
  refine ⟨free kind, ?_, fun e member => related.data.owner ▸ owned e member⟩
  have shows := related.worker
  unfold WorkerShows at shows
  split at shows
  next kind' its =>
    obtain ⟨_, memory⟩ := shows
    unfold SpliceMemory at memory
    split at memory
    next =>
      obtain ⟨_, ⟨_, memory⟩ | ⟨before, last, chain, memory⟩⟩ := memory
      · exact carries memory (links.freeChain kind)
      · apply carries memory
        apply (links.freeChain kind).update
        intro member
        -- the tail of the worker's list is not free
        have listed : last ∈ worker kind' := by
          rw [← chain.unique (links.workerChain kind')]
          simp
        have inside : last ∈ free kind ++ worker kind := List.mem_append_left _ member
        obtain rfl := links.apart inside (List.mem_append_right (free kind') listed)
        exact (List.nodup_append.mp (links.distinct kind)).2.2 last member last listed rfl
    next => exact carries memory.2 (links.freeChain kind)
    next => exact carries memory.2 (links.freeChain kind)
  next => exact carries shows.2 (links.freeChain kind)

omit [DecidableEq Thread] in
/-- So are the lists of the worker, except between the two stores of a splice. -/
theorem Related.workerChain (related : Related workerThread state abstract)
    (whole : state.splice ≠ .clearFree) (kind : CallKind) :
    ∃ addrs, Chain state.lists.next (state.lists.workerList kind) addrs ∧
      ∀ e ∈ addrs, state.lists.owner e = some kind := by
  obtain ⟨free, worker, _, links, _⟩ := listsOk_of_reachable related.reachable
  have owned : ∀ e ∈ worker kind, abstract.owner e = some kind :=
    fun e member => links.owned kind e (List.mem_append_right _ member)
  have memory : MemoryIs state abstract.next abstract.workerList := by
    have shows := related.worker
    unfold WorkerShows at shows
    split at shows
    next kind' its =>
      obtain ⟨_, memory⟩ := shows
      unfold SpliceMemory at memory
      split at memory
      next at_ => exact absurd at_ whole
      next => exact memory.2
      next => exact memory.2
    next => exact shows.2
  refine ⟨worker kind, ?_, fun e member => related.data.owner ▸ owned e member⟩
  rw [memory.workerList]
  exact (links.workerChain kind).congr fun e member =>
    related.agree memory e kind (owned e member)

/-! ## The checks of a step -/

/-- Where a list is checked: behind the store of a call, and by the worker while
no splice is between its two stores. -/
private theorem checkedHeads_shape (resting : (∀ kind, state.lists.worker ≠ .splice kind) →
      state.splice = .lock)
    (stepped : lockedListsStep workerThread state action = some next) {head : Option Addr}
    (checked : head ∈ state.checkedHeads next.lists action) :
    next.lock = state.lock ∧ ∃ kind, head = next.lists.freeList kind ∨
      next.splice ≠ .clearFree ∧ head = next.lists.workerList kind := by
  cases action with
  | call | callHead | malloc => simp [LockedLists.checkedHeads] at checked
  | caller t =>
      simp only [LockedLists.checkedHeads] at checked
      split at checked
      next kind e pc =>
        simp only [lockedListsStep, callerListsStep, pc, Option.some.injEq] at stepped
        refine ⟨?_, kind, Or.inl (List.mem_singleton.mp checked)⟩
        subst stepped
        rfl
      next => simp at checked
  | worker held =>
      simp only [lockedListsStep, Option.ite_none_right_eq_some] at stepped
      obtain ⟨_, stepped⟩ := stepped
      simp only [LockedLists.checkedHeads] at checked
      -- the loops of the worker, outside of a splice
      have plain : ∀ kind, (∀ kind', state.lists.worker ≠ .splice kind') →
          head = next.lists.workerList kind →
          (∃ lists, { state with lists := lists } = next) →
          next.lock = state.lock ∧ ∃ kind, head = next.lists.freeList kind ∨
            next.splice ≠ .clearFree ∧ head = next.lists.workerList kind := by
        rintro kind outside its ⟨lists, rfl⟩
        exact ⟨rfl, kind, Or.inr ⟨by simp [resting outside], its⟩⟩
      cases pc : state.lists.worker with
      | splice kind =>
          simp only [pc] at checked stepped
          unfold spliceStep at stepped
          split at checked
          next first at_ =>
            simp only [at_, Option.some.injEq] at stepped
            have its := List.mem_singleton.mp checked
            subst stepped
            exact ⟨rfl, kind, Or.inr ⟨by simp, its⟩⟩
          next ePrev first at_ =>
            simp only [at_, Option.some.injEq] at stepped
            have its := List.mem_singleton.mp checked
            subst stepped
            exact ⟨rfl, kind, Or.inr ⟨by simp, its⟩⟩
          next at_ =>
            simp only [at_, Option.some.injEq] at stepped
            simp only [List.mem_cons, List.not_mem_nil, or_false] at checked
            subst stepped
            refine ⟨rfl, kind, ?_⟩
            rcases checked with its | its
            · exact Or.inr ⟨by simp, its⟩
            · exact Or.inl its
          next => simp at checked
      | forEach kind n nPrev =>
          simp only [pc] at checked stepped
          obtain ⟨lists, _, rfl⟩ := Option.map_eq_some_iff.mp stepped
          cases n with
          | some n => simp at checked
          | none =>
              cases nPrev with
              | some nPrev => simp at checked
              | none =>
                  exact plain kind (by simp [pc]) (List.mem_singleton.mp checked) ⟨lists, rfl⟩
      | unlink kind n nPrev =>
          simp only [pc] at checked stepped
          obtain ⟨lists, _, rfl⟩ := Option.map_eq_some_iff.mp stepped
          exact plain kind (by simp [pc]) (List.mem_singleton.mp checked) ⟨lists, rfl⟩
      | testFree | testWorker | lookup | deinit | freeNode | callFunc | func =>
          simp [pc] at checked

theorem LockedListsOk.checksPass (ok : LockedListsOk workerThread state)
    (contend : FewContend 65535 state)
    (stepped : lockedListsStep workerThread state action = some next)
    (few : next.FewInUse lrcuListCheckLoopDepth) : state.ChecksPass next action := by
  intro head checked
  have resting : (∀ kind, state.lists.worker ≠ .splice kind) → state.splice = .lock := by
    obtain ⟨_, related⟩ := ok.related
    exact related.locks.resting
  obtain ⟨lock, kind, its⟩ := checkedHeads_shape resting stepped checked
  have contend' : FewContend 65535 next := fun kind => lock ▸ contend kind
  obtain ⟨_, related⟩ := (ok.step contend' stepped).related
  rcases its with rfl | ⟨whole, rfl⟩
  · obtain ⟨addrs, chain, owned⟩ := related.freeChain kind
    exact few.check_passes chain owned
  · obtain ⟨addrs, chain, owned⟩ := related.workerChain whole kind
    exact few.check_passes chain owned

/-- Whoever is in a call or in a round of the worker can take its next step: no lock
is used out of turn, and no assertion on the way fails, the debug checks
included. -/
theorem lockedLists_never_stuck {actions : List (LockedListsAction Thread Addr)}
    {final : LockedLists Thread Addr}
    (few : Throughout (lockedListsStep workerThread) (FewContend 65535)
      (lockedListsInit Thread Addr) actions)
    (ran : run (lockedListsStep workerThread) (lockedListsInit Thread Addr) actions =
      some final) :
    (∀ t, final.caller t ≠ .idle → final.caller t ≠ .malloc →
      ∃ next, lockedListsStep workerThread final (.caller t) = some next ∧
        (next.FewInUse lrcuListCheckLoopDepth → final.ChecksPass next (.caller t))) ∧
    (final.caller workerThread = .idle →
      ∀ held, ∃ next, lockedListsStep workerThread final (.worker held) = some next ∧
        (next.FewInUse lrcuListCheckLoopDepth → final.ChecksPass next (.worker held))) := by
  have ok := LockedListsOk.of_run few ran
  have contend : FewContend 65535 final := few actions [] final (List.append_nil _).symm ran
  constructor
  · intro t busy allocated
    obtain ⟨next, stepped, _⟩ := ok.caller_goes_on busy allocated
    exact ⟨next, stepped, ok.checksPass contend stepped⟩
  · intro idle held
    obtain ⟨next, stepped, _⟩ := ok.worker_goes_on idle held
    exact ⟨next, stepped, ok.checksPass contend stepped⟩

/-- A call is before its store while another one waits for the lock. -/
theorem lockedLists_never_stuck_contended :
    ∃ final, run (lockedListsStep 2) (lockedListsInit (Fin 3) (Fin 2))
        ((contendedSplice 0 1 0 1).take 9) = some final ∧
      final.caller 0 = .storeHead .list 0 ∧ final.caller 1 = .lockList ∧
        (∃ next, lockedListsStep 2 final (.caller 0) = some next ∧
          next.lists.freeList .list = some 0 ∧
            lrcuListCheckLoop true lrcuListCheckLoopDepth (next.lists.next, some 0) = true) ∧
          ∃ next, lockedListsStep 2 final (.worker false) = some next := by
  obtain ⟨final, ran, caller, waits, idle⟩ : ∃ final, run (lockedListsStep 2)
      (lockedListsInit (Fin 3) (Fin 2)) ((contendedSplice 0 1 0 1).take 9) = some final ∧
        final.caller 0 = .storeHead .list 0 ∧ final.caller 1 = .lockList ∧
          final.caller 2 = .idle := ⟨_, rfl, rfl, rfl, rfl⟩
  obtain ⟨callers, rounds⟩ := lockedLists_never_stuck
    (fun _ _ state _ _ => fewContend_of_card (by decide) state) ran
  obtain ⟨next, stepped, checks⟩ := callers 0 (by simp [caller]) (by simp [caller])
  obtain ⟨round, rounded, _⟩ := rounds idle false
  have stored : next.lists.freeList .list = some 0 := by
    simp only [lockedListsStep, callerListsStep, caller, Option.some.injEq] at stepped
    subst stepped
    rfl
  refine ⟨final, ran, caller, waits, ⟨next, stepped, stored, ?_⟩, round, rounded⟩
  apply checks (LockedLists.fewInUse_of_card (by decide) next)
  simp [LockedLists.checkedHeads, caller, stored]

end LightRcu
