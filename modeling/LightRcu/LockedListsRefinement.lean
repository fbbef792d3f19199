import LightRcu.LockedListsSplices
import LightRcu.Simulations

/-!
# Sections under the list locks are atomic

As long as fewer than `2^16` threads contend for a lock, the accesses that are
made under `list_lock` and `list_hlock` add up to the steps of `CallLists`, and
what holds of these lists holds while sections are under way.
-/

namespace LightRcu

open Execution

variable {Thread Addr : Type*} [DecidableEq Thread] [DecidableEq Addr]
  {state next : LockedLists Thread Addr} {abstract : CallLists Addr} {workerThread : Thread}

/-! ## Runs -/

theorem Related.caller (related : Related workerThread state abstract) {t : Thread}
    (few : FewContend 65535 next) (stepped : callerListsStep state t = some next) :
    Matched callListsStep (Related workerThread) next abstract := by
  cases pc : state.caller t with
  | storeHead kind e =>
      obtain ⟨after, called, follows⟩ := related.storesHead pc stepped
      exact Or.inr ⟨.call kind e, after, called, follows⟩
  | idle | malloc => simp [callerListsStep, pc] at stepped
  | lockList =>
      left
      simp only [callerListsStep, pc, Option.map_eq_some_iff] at stepped
      obtain ⟨lock, locked, rfl⟩ := stepped
      exact related.access (Or.inl locked) few (by simp [pc]) rfl rfl (by simp [QueuePc.node])
        ⟨id, id⟩
  | lockHlist e =>
      left
      simp only [callerListsStep, pc, Option.map_eq_some_iff] at stepped
      obtain ⟨lock, locked, rfl⟩ := stepped
      exact related.access (Or.inl locked) few (by simp [pc]) rfl rfl
        (by simp [pc, QueuePc.node]) ⟨id, id⟩
  | unlock kind =>
      left
      simp only [callerListsStep, pc, Option.map_eq_some_iff] at stepped
      obtain ⟨lock, unlocked, rfl⟩ := stepped
      exact related.access (Or.inr unlocked) few (by simp [pc]) rfl rfl (by simp [QueuePc.node])
        ⟨id, id⟩
  | clearNext e =>
      left
      simp only [callerListsStep, pc, Option.some.injEq] at stepped
      subst stepped
      apply related.storesNext (e := e)
      · rw [pc]
        rfl
      · simp [pc]
      · intro kind its
        rw [pc]
        exact its
      · exact fun e' its => (Option.some.inj its).symm
      · simp
      · simp
  | testEmpty kind e =>
      left
      simp only [callerListsStep, pc, Option.some.injEq] at stepped
      subst stepped
      apply related.goesOn
      · apply related.locks.outside
        simp [pc]
      · intro kind' its
        rw [pc]
        split_ifs at its <;> exact its
      · intro e' its
        rw [pc]
        split_ifs at its <;> exact its
      · intro kind' e' target its
        split_ifs at its with empty
        obtain ⟨rfl, _, rfl⟩ := QueuePc.storeNext.inj its
        exact empty.symm
      · intro kind' e'
        split_ifs <;> simp
  | loadHead kind e =>
      left
      simp only [callerListsStep, pc, Option.some.injEq] at stepped
      subst stepped
      apply related.goesOn
      · apply related.locks.outside
        simp [pc]
      · intro kind' its
        rw [pc]
        exact its
      · intro e' its
        rw [pc]
        exact its
      · intro kind' e' target its
        obtain ⟨rfl, _, rfl⟩ := QueuePc.storeNext.inj its
        rfl
      · simp
  | storeNext kind e target =>
      left
      have linked := related.callers.loaded t kind e target pc
      simp only [callerListsStep, pc, Option.some.injEq] at stepped
      subst stepped
      apply related.storesNext (e := e)
      · rw [pc]
        rfl
      · simp [pc]
      · intro kind its
        rw [pc]
        exact its
      · exact fun e' its => (Option.some.inj its).symm
      · simp
      · intro kind' e' its
        obtain ⟨rfl, _⟩ := QueuePc.storeHead.inj its
        exact linked

/-- Every step is matched by one on the lists, or by none. -/
theorem Related.step (related : Related workerThread state abstract)
    {action : LockedListsAction Thread Addr} (few : FewContend 65535 next)
    (stepped : lockedListsStep workerThread state action = some next) :
    Matched callListsStep (Related workerThread) next abstract := by
  cases action with
  | call t =>
      left
      simp only [lockedListsStep, Option.ite_none_right_eq_some, Option.some.injEq] at stepped
      obtain ⟨may, rfl⟩ := stepped
      exact related.goesOn may.outside (by simp [QueuePc.locked]) (by simp [QueuePc.node])
        (by simp) (by simp)
  | callHead t e =>
      left
      simp only [lockedListsStep, Option.ite_none_right_eq_some, Option.some.injEq] at stepped
      obtain ⟨⟨may, unused⟩, rfl⟩ := stepped
      exact related.takes unused may.outside (by simp [QueuePc.locked]) rfl (by simp)
  | malloc t result =>
      left
      simp only [lockedListsStep, Option.ite_none_right_eq_some] at stepped
      obtain ⟨pc, stepped⟩ := stepped
      have outside := related.locks.outside (t := t) (by simp [pc])
      cases result with
      | none =>
          obtain rfl := Option.some.inj stepped
          exact related.goesOn outside (by simp [pc, QueuePc.locked]) (by simp [QueuePc.node])
            (by simp) (by simp)
      | some e =>
          simp only [Option.ite_none_right_eq_some, Option.some.injEq] at stepped
          obtain ⟨unused, rfl⟩ := stepped
          exact related.takes unused outside (by simp [pc, QueuePc.locked]) rfl (by simp)
  | caller t => exact related.caller few stepped
  | worker held =>
      simp only [lockedListsStep, Option.ite_none_right_eq_some] at stepped
      obtain ⟨idle, stepped⟩ := stepped
      split at stepped
      next kind its =>
        rcases related.splices its few held stepped with follows | ⟨after, matched, follows⟩
        · exact Or.inl follows
        · exact Or.inr ⟨_, after, matched, follows⟩
      next plain =>
        obtain ⟨lists, after, worked, matched, follows⟩ := related.worksOn idle plain held
        simp only [worked, Option.map_some, Option.some.injEq] at stepped
        subst stepped
        exact Or.inr ⟨_, after, matched, follows⟩

omit [DecidableEq Thread] in
theorem Related.init :
    Related workerThread (lockedListsInit Thread Addr) callListsInit where
  reachable := ⟨callListsInit, [], rfl, rfl⟩
  locks := LocksOk.init
  callers := CallersOk.init
  data := ⟨rfl, rfl, rfl, rfl, rfl, rfl⟩
  worker := ⟨rfl, fun _ _ => rfl, rfl⟩

theorem related_of_run {actions : List (LockedListsAction Thread Addr)}
    {final : LockedLists Thread Addr}
    (few : Throughout (lockedListsStep workerThread) (FewContend 65535)
      (lockedListsInit Thread Addr) actions)
    (ran : run (lockedListsStep workerThread) (lockedListsInit Thread Addr) actions =
      some final) :
    ∃ coarse, Related workerThread final coarse := by
  obtain ⟨_, coarse, _, ends⟩ := run_simulates (Related workerThread)
    (fun _ _ _ _ related few stepped => related.step few stepped) few Related.init ran
  exact ⟨coarse, ends⟩

omit [DecidableEq Addr] in
theorem ConservedOk.accounts {free worker : CallKind → List Addr}
    (ok : ConservedOk free worker abstract) (between : abstract.worker.Between)
    (kind : CallKind) (obj : ObjId) :
    ((free kind).map abstract.obj).count obj + ((worker kind).map abstract.obj).count obj +
        (abstract.destroyed kind).count obj = (if obj < abstract.registered kind then 1 else 0) ∧
      abstract.invocations kind obj = if obj ∈ abstract.destroyed kind then 1 else 0 := by
  obtain ⟨unlinked, invoking⟩ := hands_of_between abstract between
  have once := ok.once kind
  have invoked := ok.invoked kind obj
  rw [unlinked, List.append_nil, List.map_append] at once
  rw [invoking, List.append_nil] at invoked
  have counted := once.count_eq obj
  rw [List.count_append, List.count_append, List.nodup_range.count] at counted
  simp only [List.mem_range] at counted
  have distinct := (List.nodup_append.mp (once.nodup_iff.mpr List.nodup_range)).2.1
  exact ⟨counted, invoked.trans distinct.count⟩

/-- Memory that is in use by no call does not matter. -/
theorem conserved_of_agree {field : Addr → Option Addr}
    (reachable : Reachable (· = callListsInit) callListsStep abstract)
    (between : abstract.worker.Between)
    (agree : ∀ e kind, abstract.owner e = some kind → field e = abstract.next e) :
    CallLists.Conserved { abstract with next := field } := by
  obtain ⟨free, worker, _, links, ok⟩ := listsOk_of_reachable reachable
  refine ⟨free, worker, fun kind => ⟨?_, ?_, fun obj => ok.accounts between kind obj⟩⟩
  · refine (links.freeChain kind).congr fun e member => ?_
    exact agree e kind (links.owned kind e (List.mem_append_left _ member))
  · refine (links.workerChain kind).congr fun e member => ?_
    exact agree e kind (links.owned kind e (List.mem_append_right _ member))

/-- What the lists are while sections are under way: those of a state between
sections, up to nodes in hand, and up to the splice that the worker is in. -/
structure LockedLists.Shows (state : LockedLists Thread Addr) (abstract : CallLists Addr) :
    Prop where
  data : SameData state.lists abstract
  worker : (∀ kind, state.lists.worker ≠ .splice kind) →
    abstract.worker = state.lists.worker ∧ MemoryIs state abstract.next abstract.workerList

/-- Sections under the list locks are atomic. -/
theorem lockedLists_refine {actions : List (LockedListsAction Thread Addr)}
    {final : LockedLists Thread Addr}
    (few : Throughout (lockedListsStep workerThread) (FewContend 65535)
      (lockedListsInit Thread Addr) actions)
    (ran : run (lockedListsStep workerThread) (lockedListsInit Thread Addr) actions =
      some final) :
    ∃ coarse, Reachable (· = callListsInit) callListsStep coarse ∧ final.Shows coarse := by
  obtain ⟨coarse, related⟩ := related_of_run few ran
  exact ⟨coarse, related.reachable, related.data, related.worker.settled⟩

/-- Two calls contend with each other and with a splice. -/
def contendedSplice (first second : Thread) (e e' : Addr) : List (LockedListsAction Thread Addr) :=
  [.call first, .caller first, .caller first, .malloc first (some e), .caller first,
    .caller first, .caller first, .call second, .caller second, .caller first, .worker false,
    .worker false, .caller second, .worker false, .caller first, .caller first, .caller second,
    .malloc second (some e'), .caller second, .caller second, .caller second, .caller second,
    .caller second, .caller second, .caller second, .worker false, .worker false,
    .worker false, .worker false, .worker false, .worker false, .worker false, .worker false]

theorem lockedLists_refine_contended :
    ∃ final, run (lockedListsStep 2) (lockedListsInit (Fin 3) (Fin 2))
        (contendedSplice 0 1 0 1) = some final ∧ final.lists.workerList .list = some 1 ∧
      ∃ coarse, Reachable (· = callListsInit) callListsStep coarse ∧ final.Shows coarse := by
  obtain ⟨final, ran, spliced⟩ : ∃ final, run (lockedListsStep 2)
      (lockedListsInit (Fin 3) (Fin 2)) (contendedSplice 0 1 0 1) = some final ∧
        final.lists.workerList .list = some 1 := ⟨_, rfl, rfl⟩
  refine ⟨final, ran, spliced, lockedLists_refine ?_ ran⟩
  exact fun _ _ state _ _ => fewContend_of_card (by decide) state

/-- Callbacks are neither lost nor run twice, whatever calls are under way. -/
theorem lockedLists_conserved {actions : List (LockedListsAction Thread Addr)}
    {final : LockedLists Thread Addr}
    (few : Throughout (lockedListsStep workerThread) (FewContend 65535)
      (lockedListsInit Thread Addr) actions)
    (ran : run (lockedListsStep workerThread) (lockedListsInit Thread Addr) actions =
      some final)
    (plain : ∀ kind, final.lists.worker ≠ .splice kind) (between : final.lists.worker.Between) :
    final.lists.Conserved := by
  obtain ⟨coarse, related⟩ := related_of_run few ran
  obtain ⟨worker, memory⟩ := related.worker.settled plain
  rw [← worker] at between
  rw [related.data.eq worker.symm memory.workerList]
  exact conserved_of_agree related.reachable between (related.agree memory)

theorem lockedLists_conserved_contended :
    ∃ final, run (lockedListsStep 2) (lockedListsInit (Fin 3) (Fin 2))
        (contendedSplice 0 1 0 1 ++ [.call 0, .caller 0, .caller 0]) = some final ∧
      final.caller 0 = .malloc ∧ final.lists.Conserved := by
  obtain ⟨final, ran, called, worker⟩ : ∃ final, run (lockedListsStep 2)
      (lockedListsInit (Fin 3) (Fin 2))
        (contendedSplice 0 1 0 1 ++ [.call 0, .caller 0, .caller 0]) = some final ∧
      final.caller 0 = .malloc ∧ final.lists.worker = .testFree .hlist :=
    ⟨_, rfl, rfl, rfl⟩
  refine ⟨final, ran, called, lockedLists_conserved ?_ ran (by simp [worker]) ?_⟩
  · exact fun _ _ state _ _ => fewContend_of_card (by decide) state
  · rw [worker]
    trivial

end LightRcu
