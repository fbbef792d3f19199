import LightRcu.ListLoops
import LightRcu.NamespacePasses

/-!
# Checks in a namespace

`namespaceStep` leaves two kinds of assertions out, which change nothing unless
they fail.  In builds with `LRCU_LIST_DEBUG` the operations of `list.h` walk their
lists and assert that they are short.  The callers of `lrcu_synchronize_ns` and
`lrcu_barrier_ns` assert that their threads are outside their read sections.
-/

namespace LightRcu

open Execution

variable {workerTi : ReaderId} {ranges : Nat → LrcuRange} {state next : NamespaceState}

/-! ## What is asserted -/

/-- The lengths that `lrcu_list_check_loop` counts in `lrcu_list_splice`, apart
from that of the list it leaves empty. -/
def spliceLengths {Elem : Type*} (front back : List Elem) : List Nat :=
  if back.isEmpty then []
  else if front.isEmpty then [back.length]
  else [front.length, front.length + back.length]

/-- The lengths that `lrcu_list_check_loop` counts in a step of a pass. -/
def PassPc.checkedLengths (lists : ThreadLists ReaderId) (pass : PassPc) :
    PassAction → List Nat
  | .lockThreads => [lists.threads.length]
  | .visit now =>
      match pass with
      | .visiting loop currentVersion index (some version) (some counter) _ =>
          match (lists.walked loop)[index]? with
          | some ti =>
              let visit := loop.visit currentVersion (lists.info ti) ⟨⟨version, counter⟩, now⟩
              if visit.moves then
                let moved := lists.move index ti loop
                [moved.threads.length, moved.hungThreads.length]
              else []
          | none => []
      | _ => []
  | .nextLoop => [lists.hungThreads.length]
  | .loadVersion | .loadLnsVersion | .loadLnsCounter | .unlockThreads => []

/-- The lengths that `lrcu_list_check_loop` counts in a step. -/
def NamespaceState.checkedLengths (state : NamespaceState) : NamespaceAction → List Nat
  | .reader _ .lrcuThreadSetNs => [state.lists.threads.length + 1]
  | .reader i .lrcuThreadDelNs =>
      [state.lists.threads.length, (state.lists.threads.erase i).length]
  | .call obj .insert =>
      match state.stage obj with
      | .calling _ true => [state.freeHlist.length + 1]
      | .calling _ false => [state.freeList.length + 1]
      | _ => []
  | .pass owner action =>
      (state.passOf owner).elim [] fun pass => pass.checkedLengths state.lists action
  | .worker =>
      match state.worker with
      | .spliceFreeList => spliceLengths state.workerList state.freeList
      | .spliceFreeHlist => spliceLengths state.workerHlist state.freeHlist
      | .passing (.finished _) => [state.workerList.length]
      | .walkList index rbt =>
          match state.workerList[index]? with
          | none => [state.workerHlist.length]
          | some callback =>
              if lrcuRangetreeFind rbt callback.version then []
              else [(state.workerList.eraseIdx index).length]
      | .walkHlist index rbt =>
          match state.workerHlist[index]? with
          | none => []
          | some callback =>
              if lrcuRangetreeFind rbt callback.version then []
              else [(state.workerHlist.eraseIdx index).length]
      | _ => []
  | _ => []

/-- `LRCU_ASSERT(LRCU_GET_LNS_ID(ti, ns_id)->counter == 0)`, for the thread that
a caller is, if it is registered. -/
def NamespaceState.CallerOutside (state : NamespaceState) (ti : CallerId → Option ReaderId)
    (c : CallerId) : Prop :=
  ∀ i, ti c = some i → (state.lns i).counter = 0

/-- The callers that assert in a step that they are outside: on the way into
either function, and in `lrcu_barrier_ns` again behind the wait. -/
def NamespaceState.asserts (state : NamespaceState) (c : CallerId) : NamespaceAction → Prop
  | .enter c' _ _ => c' = c
  | .caller c' => c' = c ∧ state.caller c = .loadBarrier
  | _ => False

/-- The assertions that `namespaceStep` leaves out hold in a step. -/
structure NamespaceState.ChecksPass (state : NamespaceState) (ti : CallerId → Option ReaderId)
    (action : NamespaceAction) : Prop where
  lengths : ∀ length ∈ state.checkedLengths action, length < lrcuListCheckLoopDepth
  callers : ∀ c, state.asserts c action → state.CallerOutside ti c

/-! ## When they hold -/

/-- A thread that is in `lrcu_synchronize_ns` or `lrcu_barrier_ns` has entered it
outside of its read sections and enters none before it returns. -/
structure CallsOutside (ti : CallerId → Option ReaderId) (state : NamespaceState)
    (action : NamespaceAction) : Prop where
  enters : ∀ c barrier ranges, action = .enter c barrier ranges → state.CallerOutside ti c
  stays : ∀ c i, action = .reader i .lockCount → ti c = some i → state.caller c = .idle

/-- Whoever is in a call is outside of its read sections. -/
def CallersOutside (ti : CallerId → Option ReaderId) (state : NamespaceState) : Prop :=
  ∀ c, state.caller c ≠ .idle → state.CallerOutside ti c

theorem CallersOutside.init {ti : CallerId → Option ReaderId} :
    CallersOutside ti (namespaceInit workerTi ranges) :=
  fun _ inCall => absurd rfl inCall

private theorem counter_zero_of_step {action : NamespaceAction} {i : ReaderId}
    (stays : action ≠ .reader i .lockCount) (outside : (state.lns i).counter = 0)
    (stepped : namespaceStep state action = some next) : (next.lns i).counter = 0 := by
  by_cases own : ∃ own, action = .reader i own
  · obtain ⟨own, rfl⟩ := own
    cases readerMove_of_step stepped with
    | lockCount => exact absurd rfl stays
    | lockStore => simpa [NamespaceState.setReader, NamespaceState.setLns] using outside
    | unlockLast => simp [NamespaceState.setHeld, NamespaceState.setLns]
    | unlockNested idle nested counted =>
        rw [outside] at counted
        exact absurd counted (by decide)
    | lockFirst | lockNested | dereference | dereferenceNull | setNs | delNs => exact outside
  · rw [(reader_eq_of_step stepped (not_exists.mp own)).1]
    exact outside

theorem CallersOutside.step {ti : CallerId → Option ReaderId} {action : NamespaceAction}
    (outside : CallersOutside ti state) (calls : CallsOutside ti state action)
    (stepped : namespaceStep state action = some next) : CallersOutside ti next := by
  intro c inCall i its
  have left : state.caller c ≠ .idle → (next.lns i).counter = 0 := by
    intro inCall
    refine counter_zero_of_step ?_ (outside c inCall i its) stepped
    rintro rfl
    exact inCall (calls.stays c i rfl its)
  rcases caller_of_step c stepped with
    same | ⟨_, _, _, _, waiting, _⟩ | move | ⟨_, barrier, ranges, rfl, _⟩
  · exact left (same ▸ inCall)
  · exact left (by simp [waiting])
  · refine left fun idle => ?_
    rw [idle] at move
    generalize next.caller c = pc at move
    cases move
  · obtain ⟨_, rfl⟩ := enter_shape stepped
    exact calls.enters c barrier ranges rfl i its

end LightRcu
