import LightRcu.CallbackListLinks
import LightRcu.Execution
import Mathlib.Data.List.Perm.Basic

/-!
# Callbacks are neither lost nor run twice

Every object that was passed to a call is on one of the two lists of its kind,
once, or it is destroyed.  In the middle of a destruction the worker has one
object in its hands: its destructor is entered before its node leaves
`worker_list`, but after its node has left `worker_hlist`.
-/

namespace LightRcu

open Execution

variable {Addr : Type*} [DecidableEq Addr] {state next : CallLists Addr}
  {free worker : CallKind → List Addr} {index : Nat} {held : Bool}

namespace CallLists

/-- The objects that are off their list while their destructor is not entered
yet. -/
def unlinked (state : CallLists Addr) : CallKind → List ObjId
  | .list => []
  | .hlist =>
      match state.worker with
      | .callFunc n _ => [state.obj n]
      | _ => []

/-- The objects whose destructor is entered while they are on their list. -/
def invoking (state : CallLists Addr) : CallKind → List ObjId
  | .list =>
      match state.worker with
      | .deinit n _ | .unlink .list n _ => [state.obj n]
      | _ => []
  | .hlist => []

end CallLists

/-- The worker has no object in its hands. -/
def ListsPc.Between : ListsPc Addr → Prop
  | .deinit _ _ | .unlink .list _ _ | .callFunc _ _ => False
  | _ => True

omit [DecidableEq Addr] in
theorem hands_of_between (state : CallLists Addr) (between : state.worker.Between) :
    state.unlinked = (fun _ => []) ∧ state.invoking = fun _ => [] := by
  constructor
  · funext kind
    unfold CallLists.unlinked
    split
    · rfl
    · split
      next its => simp [its, ListsPc.Between] at between
      next => rfl
  · funext kind
    unfold CallLists.invoking
    split
    · split
      next its => simp [its, ListsPc.Between] at between
      next its => simp [its, ListsPc.Between] at between
      next => rfl
    · rfl

/-- Every object is accounted for. -/
structure ConservedOk (free worker : CallKind → List Addr) (state : CallLists Addr) : Prop where
  once : ∀ kind, ((free kind ++ worker kind).map state.obj ++ state.destroyed kind ++
    state.unlinked kind).Perm (List.range (state.registered kind))
  invoked : ∀ kind obj, state.invocations kind obj =
    (state.destroyed kind ++ state.invoking kind).count obj

namespace ConservedOk

omit [DecidableEq Addr] in
theorem init : ConservedOk (fun _ => []) (fun _ => []) (callListsInit : CallLists Addr) where
  once kind := by cases kind <;> exact List.Perm.refl _
  invoked kind obj := by cases kind <;> rfl

private theorem hands_of_call {kind : CallKind} {e : Addr}
    (links : LinksOk free worker index state)
    (stepped : callQueueStep state kind e = some next) :
    next.unlinked = state.unlinked ∧ next.invoking = state.invoking := by
  obtain ⟨unused, rfl⟩ := callQueueStep_eq stepped
  have kept : ∀ {n kind'}, state.owner n = some kind' →
      Function.update state.obj e (state.registered kind) n = state.obj n := by
    intro n kind' owned
    refine Function.update_of_ne ?_ _ _
    rintro rfl
    simp [owned] at unused
  have visited : ∀ {n nPrev}, VisitsAt (worker .list) index n nPrev →
      state.owner n = some .list := fun visits =>
    links.owned .list _ (List.mem_append_right _ (List.mem_of_getElem? visits.1))
  have iteration := links.iteration
  constructor
  · funext kind'
    cases kind' with
    | list => rfl
    | hlist =>
        cases pc : state.worker with
        | callFunc n nPrev =>
            rw [pc] at iteration
            simp only [CallLists.unlinked, pc, kept iteration.2.2]
        | testFree | splice | testWorker | forEach | lookup | deinit | unlink | freeNode
        | func => simp only [CallLists.unlinked, pc]
  · funext kind'
    cases kind' with
    | hlist => rfl
    | list =>
        cases pc : state.worker with
        | deinit n nPrev =>
            rw [pc] at iteration
            simp only [CallLists.invoking, pc, kept (visited iteration)]
        | unlink kind'' n nPrev =>
            rw [pc] at iteration
            cases kind'' with
            | list => simp only [CallLists.invoking, pc, kept (visited iteration)]
            | hlist => simp only [CallLists.invoking, pc]
        | testFree | splice | testWorker | forEach | lookup | freeNode | callFunc
        | func => simp only [CallLists.invoking, pc]

theorem call {kind : CallKind} {e : Addr} (links : LinksOk free worker index state)
    (ok : ConservedOk free worker state) (stepped : callQueueStep state kind e = some next) :
    ConservedOk (Function.update free kind (e :: free kind)) worker next := by
  obtain ⟨unlinked, invoking⟩ := hands_of_call links stepped
  obtain ⟨unused, rfl⟩ := callQueueStep_eq stepped
  have mapped : ∀ kind', (free kind' ++ worker kind').map
      (Function.update state.obj e (state.registered kind)) =
        (free kind' ++ worker kind').map state.obj := by
    intro kind'
    refine List.map_congr_left fun addr member => Function.update_of_ne ?_ _ _
    rintro rfl
    exact links.fresh unused kind' member
  constructor
  · intro kind'
    rw [unlinked]
    by_cases same : kind' = kind
    · subst same
      simp only [Function.update_self, List.cons_append, List.map_cons, mapped, List.range_succ]
      exact ((ok.once kind').cons _).trans (List.perm_append_singleton _ _).symm
    · simp only [Function.update_of_ne same, mapped]
      exact ok.once kind'
  · intro kind' obj
    rw [invoking]
    exact ok.invoked kind' obj

omit [DecidableEq Addr] in
theorem move (ok : ConservedOk free worker state) (pc : ListsPc Addr)
    (before : state.worker.Between) (after : pc.Between) :
    ConservedOk free worker { state with worker := pc } := by
  obtain ⟨unlinked, invoking⟩ := hands_of_between state before
  obtain ⟨unlinked', invoking'⟩ := hands_of_between { state with worker := pc } after
  refine ⟨fun kind => ?_, fun kind obj => ?_⟩
  · rw [unlinked', ← unlinked]
    exact ok.once kind
  · rw [invoking', ← invoking]
    exact ok.invoked kind obj

end ConservedOk

/-! ## Steps of the worker -/

omit [DecidableEq Addr] in
private theorem listsOk_move {pc : ListsPc Addr} (index' : Nat)
    (links : LinksOk free worker index state) (ok : ConservedOk free worker state)
    (before : state.worker.Between) (after : pc.Between)
    (iteration : IterationOk free worker index' state.owner pc) :
    ∃ free' worker' index', LinksOk free' worker' index' { state with worker := pc } ∧
      ConservedOk free' worker' { state with worker := pc } :=
  ⟨free, worker, index', links.move iteration, ok.move pc before after⟩

private theorem listsOk_splice {kind : CallKind} {pc : ListsPc Addr}
    (links : LinksOk free worker index state) (ok : ConservedOk free worker state)
    (before : state.worker.Between) (after : pc.Between)
    (idle : ∀ free worker index owner, IterationOk free worker index owner pc)
    (stepped : (lrcuListSplice state.next (state.registered kind + 1) (state.workerList kind)
      (state.freeList kind)).map (fun (next, lh, lt) =>
        { state with
          next := next
          workerList := Function.update state.workerList kind lh
          freeList := Function.update state.freeList kind lt
          worker := pc }) = some next) :
    ∃ free' worker' index', LinksOk free' worker' index' next ∧ ConservedOk free' worker' next := by
  obtain ⟨next', lh', spliced, linked⟩ := links.splice kind
  rw [spliced] at stepped
  obtain rfl := Option.some.inj stepped
  refine ⟨_, _, index, linked pc idle, ?_⟩
  obtain ⟨once, invoked⟩ := ok.move pc before after
  refine ⟨fun kind' => ?_, invoked⟩
  have moved := (LinksOk.splice_perm free worker kind kind').map state.obj
  exact ((moved.append_right _).append_right _).trans (once kind')

private theorem update_succ_eq (count : ObjId → Nat) (invoked obj : ObjId) :
    Function.update count invoked (count invoked + 1) obj =
      count obj + [invoked].count obj := by
  by_cases same : obj = invoked
  · subst same
    simp
  · rw [Function.update_of_ne same, List.count_singleton, if_neg (by simpa using Ne.symm same),
      Nat.add_zero]

omit [DecidableEq Addr] in
private theorem listsOk_invoke {n : Addr} {nPrev : Option Addr}
    (links : LinksOk free worker index state) (ok : ConservedOk free worker state)
    (before : state.worker.Between) (visits : VisitsAt (worker .list) index n nPrev) :
    LinksOk free worker index
        { state.invoke .list (state.obj n) with worker := .deinit n nPrev } ∧
      ConservedOk free worker
        { state.invoke .list (state.obj n) with worker := .deinit n nPrev } := by
  obtain ⟨unlinked, invoking⟩ := hands_of_between state before
  refine ⟨⟨links.freeChain, links.workerChain, links.distinct, links.owned, links.counted,
    visits⟩, ⟨fun kind => ?_, fun kind obj => ?_⟩⟩
  · have once := ok.once kind
    rw [unlinked] at once
    cases kind <;> exact once
  · have invoked := ok.invoked kind obj
    rw [invoking, List.append_nil] at invoked
    cases kind with
    | list =>
        simp only [CallLists.invoke, CallLists.invoking, Function.update_self]
        rw [update_succ_eq, invoked, List.count_append]
    | hlist => simpa [CallLists.invoke, CallLists.invoking] using invoked

omit [DecidableEq Addr] in
/-- The element that the iteration is at, and the list without it. -/
private theorem queued_perm {kind : CallKind} {n : Addr} {nPrev : Option Addr}
    (visits : VisitsAt (worker kind) index n nPrev) (obj : Addr → ObjId) :
    ((free kind ++ worker kind).map obj).Perm
      (obj n :: (free kind ++ (worker kind).eraseIdx index).map obj) := by
  obtain ⟨inside, rfl⟩ := List.getElem?_eq_some_iff.mp visits.1
  have taken := ((List.getElem_cons_eraseIdx_perm inside).symm.append_left (free kind)).trans
    List.perm_middle
  simpa using taken.map obj

omit [DecidableEq Addr] in
/-- What leaves the list of the worker is accounted for elsewhere. -/
private theorem once_unlink {kind : CallKind} {n : Addr} {nPrev : Option Addr}
    {obj : Addr → ObjId} {destroyed destroyed' unlinked unlinked' range : CallKind → List ObjId}
    (visits : VisitsAt (worker kind) index n nPrev)
    (once : ∀ kind', ((free kind' ++ worker kind').map obj ++ destroyed kind' ++
      unlinked kind').Perm (range kind'))
    (added : (destroyed' kind ++ unlinked' kind).Perm (obj n :: (destroyed kind ++ unlinked kind)))
    (kept : ∀ kind', kind' ≠ kind →
      destroyed' kind' ++ unlinked' kind' = destroyed kind' ++ unlinked kind') (kind' : CallKind) :
    ((free kind' ++ Function.update worker kind ((worker kind).eraseIdx index) kind').map obj ++
      destroyed' kind' ++ unlinked' kind').Perm (range kind') := by
  refine List.Perm.trans ?_ (once kind')
  rw [List.append_assoc, List.append_assoc]
  by_cases same : kind' = kind
  · subst same
    rw [Function.update_self]
    refine (added.append_left _).trans (List.perm_middle.trans ?_)
    exact (queued_perm visits obj).symm.append_right _
  · rw [Function.update_of_ne same, kept kind' same]

/-- The node of a callback leaves the list of the worker: its destructor has
returned, or it is entered next. -/
private theorem listsOk_unlink {kind : CallKind} {n : Addr} {nPrev : Option Addr}
    (links : LinksOk free worker index state) (ok : ConservedOk free worker state)
    (pc : state.worker = .unlink kind n nPrev)
    (stepped : workerListsStep state held = some next) :
    ∃ free' worker' index', LinksOk free' worker' index' next ∧ ConservedOk free' worker' next := by
  have visits : VisitsAt (worker kind) index n nPrev := by
    have iteration := links.iteration
    rwa [pc] at iteration
  obtain ⟨next', head', unlinked, removed, linked⟩ := links.unlink visits
  simp only [workerListsStep, pc, unlinked, Option.map_some, Option.some.injEq] at stepped
  subst stepped
  have notFree : n ∉ free kind := fun member =>
    (List.nodup_append.mp (links.distinct kind)).2.2 n member n
      (List.mem_of_getElem? visits.1) rfl
  have owned := links.owned kind n (List.mem_append_right _ (List.mem_of_getElem? visits.1))
  have off : RemovedAt (Function.update worker kind ((worker kind).eraseIdx index) kind)
      index n nPrev := by rwa [Function.update_self]
  refine ⟨free, Function.update worker kind ((worker kind).eraseIdx index), index, ?_, ?_⟩
  · cases kind with
    | list =>
        obtain ⟨freeChain, workerChain, distinct, owned, counted, iteration⟩ :=
          linked (.freeNode n nPrev) ⟨off, notFree, owned⟩
        exact ⟨freeChain, workerChain, distinct, owned, counted, iteration⟩
    | hlist => exact linked (.callFunc n nPrev) ⟨off, notFree, owned⟩
  · cases kind with
    | list =>
        refine ⟨fun kind' => ?_, fun kind' obj => ?_⟩
        · refine once_unlink visits ok.once ?_ ?_ kind'
          · simp [CallLists.settle, CallLists.unlinked]
          · rintro (_ | _) other
            · exact absurd rfl other
            · simp [CallLists.settle, CallLists.unlinked, pc]
        · have invoked := ok.invoked kind' obj
          cases kind' with
          | list =>
              simp only [CallLists.invoking, pc] at invoked
              simp only [CallLists.settle, CallLists.invoking, Function.update_self,
                List.append_nil]
              exact invoked.trans ((List.perm_append_singleton _ _).count_eq _)
          | hlist => simpa [CallLists.settle, CallLists.invoking] using invoked
    | hlist =>
        refine ⟨fun kind' => ?_, fun kind' obj => ?_⟩
        · refine once_unlink visits ok.once ?_ ?_ kind'
          · simp [CallLists.unlinked, pc]
          · rintro (_ | _) other
            · rfl
            · exact absurd rfl other
        · have invoked := ok.invoked kind' obj
          cases kind' <;> simpa [CallLists.invoking, pc] using invoked

private theorem links_release {kind : CallKind} {n : Addr}
    (links : LinksOk free worker index state) (pc : ListsPc Addr)
    (absent : n ∉ free kind ++ worker kind) (owned : state.owner n = some kind)
    (iteration : ∀ owner, IterationOk free worker index owner pc) :
    LinksOk free worker index { state.release n with worker := pc } := by
  refine ⟨links.freeChain, links.workerChain, links.distinct, fun kind' addr member => ?_,
    links.counted, iteration _⟩
  refine (Function.update_of_ne ?_ _ _).trans (links.owned kind' addr member)
  rintro rfl
  obtain rfl := Option.some.inj (owned.symm.trans (links.owned kind' addr member))
  exact absent member

omit [DecidableEq Addr] in
private theorem listsOk_deinit {n : Addr} {nPrev : Option Addr}
    (links : LinksOk free worker index state) (ok : ConservedOk free worker state)
    (pc : state.worker = .deinit n nPrev) :
    LinksOk free worker index { state with worker := .unlink .list n nPrev } ∧
      ConservedOk free worker { state with worker := .unlink .list n nPrev } := by
  have iteration := links.iteration
  rw [pc] at iteration
  refine ⟨links.move iteration, fun kind => ?_, fun kind obj => ?_⟩
  · have once := ok.once kind
    cases kind with
    | list => exact once
    | hlist => simpa only [CallLists.unlinked, pc] using once
  · have invoked := ok.invoked kind obj
    cases kind with
    | list => simpa only [CallLists.invoking, pc] using invoked
    | hlist => exact invoked

private theorem listsOk_freeNode {n : Addr} {nPrev : Option Addr}
    (links : LinksOk free worker index state) (ok : ConservedOk free worker state)
    (pc : state.worker = .freeNode n nPrev) :
    LinksOk free worker index
        { state.release n with worker := .forEach .list (some n) nPrev } ∧
      ConservedOk free worker
        { state.release n with worker := .forEach .list (some n) nPrev } := by
  have iteration := links.iteration
  rw [pc] at iteration
  obtain ⟨removed, notFree, owned⟩ := iteration
  have between : state.worker.Between := by
    rw [pc]
    trivial
  obtain ⟨once, invoked⟩ := ok.move (.forEach .list (some n) nPrev) between trivial
  have absent : n ∉ free .list ++ worker .list := fun member =>
    (List.mem_append.mp member).elim notFree removed.1
  exact ⟨links_release links _ absent owned fun _ => Or.inr ⟨n, rfl, Or.inl removed⟩,
    once, invoked⟩

private theorem listsOk_callFunc {n : Addr} {nPrev : Option Addr}
    (links : LinksOk free worker index state) (ok : ConservedOk free worker state)
    (pc : state.worker = .callFunc n nPrev) :
    LinksOk free worker index
        { ((state.invoke .hlist (state.obj n)).settle .hlist (state.obj n)).release n with
          worker := .func n nPrev } ∧
      ConservedOk free worker
        { ((state.invoke .hlist (state.obj n)).settle .hlist (state.obj n)).release n with
          worker := .func n nPrev } := by
  have iteration := links.iteration
  rw [pc] at iteration
  obtain ⟨removed, notFree, owned⟩ := iteration
  have absent : n ∉ free .hlist ++ worker .hlist := fun member =>
    (List.mem_append.mp member).elim notFree removed.1
  have released := links_release links (.func n nPrev) absent owned fun _ => removed
  refine ⟨⟨released.freeChain, released.workerChain, released.distinct, released.owned,
    released.counted, released.iteration⟩, fun kind => ?_, fun kind obj => ?_⟩
  · have once := ok.once kind
    cases kind with
    | list => exact once
    | hlist =>
        simp only [CallLists.unlinked, pc] at once
        simp only [CallLists.unlinked, CallLists.release, CallLists.settle, CallLists.invoke,
          Function.update_self, List.append_nil]
        refine List.Perm.trans ?_ once
        rw [List.append_assoc]
        exact (List.perm_append_singleton _ _).symm.append_left _
  · have invoked := ok.invoked kind obj
    cases kind with
    | list => simpa [CallLists.release, CallLists.settle, CallLists.invoke, CallLists.invoking, pc]
        using invoked
    | hlist =>
        simp only [CallLists.invoking, List.append_nil] at invoked
        simp only [CallLists.release, CallLists.settle, CallLists.invoke, CallLists.invoking,
          Function.update_self, List.append_nil]
        rw [update_succ_eq, invoked, ← List.count_append]
        exact (List.perm_append_singleton _ _).count_eq _

theorem listsOk_step {action : CallListsAction Addr} (links : LinksOk free worker index state)
    (ok : ConservedOk free worker state) (stepped : callListsStep state action = some next) :
    ∃ free' worker' index', LinksOk free' worker' index' next ∧ ConservedOk free' worker' next := by
  cases action with
  | call kind e => exact ⟨_, _, _, links.call stepped, ok.call links stepped⟩
  | worker held =>
      have iteration := links.iteration
      have between : ∀ {pc}, state.worker = pc → pc.Between → state.worker.Between := by
        rintro _ rfl between
        exact between
      simp only [callListsStep] at stepped
      cases pc : state.worker with
      | testFree kind =>
          simp only [workerListsStep, pc] at stepped
          split_ifs at stepped
          · obtain rfl := Option.some.inj stepped
            cases kind
            · exact listsOk_move index links ok (between pc trivial) trivial trivial
            · exact listsOk_move index links ok (between pc trivial) trivial trivial
          · obtain rfl := Option.some.inj stepped
            exact listsOk_move index links ok (between pc trivial) trivial trivial
      | splice kind =>
          simp only [workerListsStep, pc] at stepped
          refine listsOk_splice links ok (between pc trivial) ?_ ?_ stepped
          · cases kind <;> trivial
          · intro free worker index owner
            cases kind <;> trivial
      | testWorker =>
          simp only [workerListsStep, pc] at stepped
          split_ifs at stepped
          · obtain rfl := Option.some.inj stepped
            exact listsOk_move index links ok (between pc trivial) trivial trivial
          · obtain rfl := Option.some.inj stepped
            exact listsOk_move 0 links ok (between pc trivial) trivial (advancesTo_start _)
      | forEach kind n nPrev =>
          rw [pc] at iteration
          simp only [workerListsStep, pc,
            lrcuListForEachGetN_spec (links.workerChain kind) iteration] at stepped
          cases found : (worker kind)[index]? with
          | none =>
              simp only [found, Option.some.injEq] at stepped
              subst stepped
              cases kind with
              | list =>
                  exact listsOk_move 0 links ok (between pc trivial) trivial (advancesTo_start _)
              | hlist => exact listsOk_move index links ok (between pc trivial) trivial trivial
          | some n =>
              simp only [found, Option.some.injEq] at stepped
              subst stepped
              exact listsOk_move index links ok (between pc trivial) trivial ⟨found, rfl⟩
      | lookup kind n nPrev =>
          rw [pc] at iteration
          simp only [workerListsStep, pc] at stepped
          split_ifs at stepped
          · obtain rfl := Option.some.inj stepped
            exact listsOk_move (index + 1) links ok (between pc trivial) trivial
              (Or.inr ⟨n, rfl, Or.inr ⟨index, rfl, iteration⟩⟩)
          · cases kind with
            | list =>
                obtain rfl := Option.some.inj stepped
                exact ⟨free, worker, index,
                  listsOk_invoke links ok (between pc trivial) iteration⟩
            | hlist =>
                obtain rfl := Option.some.inj stepped
                exact listsOk_move index links ok (between pc trivial) trivial iteration
      | deinit n nPrev =>
          simp only [workerListsStep, pc, Option.some.injEq] at stepped
          subst stepped
          exact ⟨free, worker, index, listsOk_deinit links ok pc⟩
      | unlink kind n nPrev => exact listsOk_unlink links ok pc stepped
      | freeNode n nPrev =>
          simp only [workerListsStep, pc, Option.some.injEq] at stepped
          subst stepped
          exact ⟨free, worker, index, listsOk_freeNode links ok pc⟩
      | callFunc n nPrev =>
          simp only [workerListsStep, pc, Option.some.injEq] at stepped
          subst stepped
          exact ⟨free, worker, index, listsOk_callFunc links ok pc⟩
      | func n nPrev =>
          rw [pc] at iteration
          simp only [workerListsStep, pc, Option.some.injEq] at stepped
          subst stepped
          exact listsOk_move index links ok (between pc trivial) trivial
            (Or.inr ⟨n, rfl, Or.inl iteration⟩)

/-- The lists are linked up and the objects accounted for in every state. -/
theorem listsOk_of_reachable
    (reachable : Reachable (· = callListsInit) callListsStep state) :
    ∃ free worker index, LinksOk free worker index state ∧ ConservedOk free worker state := by
  refine reachable.invariant (fun state => ∃ free worker index,
    LinksOk free worker index state ∧ ConservedOk free worker state) ?_ ?_
  · rintro _ rfl
    exact ⟨_, _, 0, LinksOk.init, ConservedOk.init⟩
  · rintro state action next ⟨free, worker, index, links, ok⟩ stepped
    exact listsOk_step links ok stepped

/-- No assertion of `list.h` fails but for those of `lrcu_list_check_loop`, which
are left out, and no loop over a list fails to end: the worker can always go
on. -/
theorem workerListsStep_of_reachable
    (reachable : Reachable (· = callListsInit) callListsStep state) (held : Bool) :
    ∃ next, callListsStep state (.worker held) = some next := by
  obtain ⟨free, worker, index, links, _⟩ := listsOk_of_reachable reachable
  have iteration := links.iteration
  refine Option.isSome_iff_exists.mp ?_
  simp only [callListsStep, workerListsStep]
  cases pc : state.worker with
  | testFree | testWorker => simp only [apply_ite Option.isSome, Option.isSome_some, ite_self]
  | splice kind =>
      obtain ⟨next', lh', spliced, _⟩ := links.splice kind
      simp [spliced]
  | forEach kind n nPrev =>
      rw [pc] at iteration
      simp only [lrcuListForEachGetN_spec (links.workerChain kind) iteration]
      cases (worker kind)[index]? <;> rfl
  | lookup kind => cases kind <;> cases held <;> rfl
  | unlink kind n nPrev =>
      rw [pc] at iteration
      obtain ⟨next', head', unlinked, _⟩ := links.unlink iteration
      simp [unlinked]
  | deinit | freeNode | callFunc | func => rfl

/-- Every object that was passed to a call is on one of the two lists of its
kind or destroyed, once, and its destructor has been entered once if it is
destroyed and never otherwise. -/
def CallLists.Conserved (state : CallLists Addr) : Prop :=
  ∃ free worker : CallKind → List Addr, ∀ kind,
    Chain state.next (state.freeList kind) (free kind) ∧
      Chain state.next (state.workerList kind) (worker kind) ∧
        ∀ obj,
          ((free kind).map state.obj).count obj + ((worker kind).map state.obj).count obj +
              (state.destroyed kind).count obj =
            (if obj < state.registered kind then 1 else 0) ∧
          state.invocations kind obj = if obj ∈ state.destroyed kind then 1 else 0

/-- Callbacks are neither lost nor run twice. -/
theorem callbacks_conserved
    (reachable : Reachable (· = callListsInit) callListsStep state)
    (between : state.worker.Between) : state.Conserved := by
  obtain ⟨free, worker, _, links, ok⟩ := listsOk_of_reachable reachable
  obtain ⟨unlinked, invoking⟩ := hands_of_between state between
  refine ⟨free, worker, fun kind => ⟨links.freeChain kind, links.workerChain kind, fun obj => ?_⟩⟩
  have places : ((free kind).map state.obj).count obj + ((worker kind).map state.obj).count obj +
      (state.destroyed kind).count obj = if obj < state.registered kind then 1 else 0 := by
    have counted := (ok.once kind).count_eq obj
    rw [unlinked, List.append_nil, List.map_append, List.count_append, List.count_append]
      at counted
    rw [counted, List.nodup_range.count]
    simp only [List.mem_range]
  refine ⟨places, ?_⟩
  rw [ok.invoked kind obj, invoking, List.append_nil]
  have atMost : (state.destroyed kind).count obj ≤ 1 := by
    split_ifs at places <;> omega
  split_ifs with destroyed
  · exact Nat.le_antisymm atMost (List.count_pos_iff.mpr destroyed)
  · exact List.count_eq_zero_of_not_mem destroyed

/-- The destructor of the newest object on `worker_list` calls for another one,
the object behind it is held back, and the destructor on `worker_hlist` queues
its own head again. -/
def callInDestructorActions : List (CallListsAction Nat) :=
  [.call .list 10, .call .hlist 11, .call .list 12] ++
    List.replicate 7 (.worker false) ++ [.call .list 13] ++
    List.replicate 4 (.worker false) ++ [.worker true] ++
    List.replicate 5 (.worker false) ++ [.call .hlist 11] ++
    List.replicate 2 (.worker false)

theorem callbacks_conserved_of_call_in_destructor :
    ∃ state, run callListsStep callListsInit callInDestructorActions = some state ∧
      state.freeList .list = some 13 ∧ state.workerList .list = some 10 ∧
        state.freeList .hlist = some 11 ∧ state.destroyed .list = [1] ∧
          state.destroyed .hlist = [0] ∧ state.Conserved := by
  obtain ⟨state, ran, free, worker, freeHead, destroyed, destroyedHead, idle⟩ :
      ∃ state, run callListsStep callListsInit callInDestructorActions = some state ∧
        state.freeList .list = some 13 ∧ state.workerList .list = some 10 ∧
          state.freeList .hlist = some 11 ∧ state.destroyed .list = [1] ∧
            state.destroyed .hlist = [0] ∧ state.worker = .testFree .list :=
    ⟨_, rfl, rfl, rfl, rfl, rfl, rfl, rfl⟩
  refine ⟨state, ran, free, worker, freeHead, destroyed, destroyedHead,
    callbacks_conserved ⟨callListsInit, _, rfl, ran⟩ ?_⟩
  rw [idle]
  trivial

end LightRcu
