import LightRcu.GetSynchronized
import LightRcu.VersionClock

/-!
# Installing and removing namespaces

The handler keeps two pointers to each namespace: `ns` for its users and
`worker_ns` for the worker, which reclaims a namespace once both differ.  The
functions that change the pointers are lists of instructions, one for each
access to shared data, so that the worker and other callers can run in between.
The process stops at the first assertion that fails and at the first access to
a freed namespace.
-/

namespace LightRcu

open Execution

/-- The fields of `struct lrcu_namespace` that its removal depends on.  The
callbacks on the two free lists, and on the two lists of the worker, are
counted. -/
structure LrcuNamespace where
  version : Nat
  processedVersion : Nat
  threads : List LrcuLocalNamespace
  freeCallbacks : Nat
  workerCallbacks : Nat

/-- The loop of `lrcu_ns_destructor`: the namespace that is left, or `none`
when no thread was left on its list and it was freed. -/
def lrcuNsDestructor (ns : LrcuNamespace) (forced : Bool) : Option LrcuNamespace :=
  let threads := ns.threads.filter fun lns =>
    !(forced || (lns.counter == 0 && decide (lns.version ≥ ns.version)))
  if threads.isEmpty then none else some { ns with threads := threads }

inductive Instr
  /-- `lrcu_spin_lock(&h->ns_lock)` -/
  | lockNsLock
  /-- `lrcu_spin_unlock(&h->ns_lock)` -/
  | unlockNsLock
  /-- `ns = h->ns[id]; LRCU_ASSERT(ns)` -/
  | loadNs (id : NsId)
  /-- `LRCU_ASSERT(!h->ns[id])` -/
  | assertNoNs (id : NsId)
  /-- `h->ns[id] = ns`, where `ns` is pending removal or newly allocated -/
  | installNs (id : NsId)
  /-- `h->worker_ns[id] = ns` -/
  | installWorkerNs (id : NsId)
  /-- `h->ns[id] = NULL` -/
  | clearNs (id : NsId)
  /-- `h->worker_ns[id] = NULL` -/
  | clearWorkerNs (id : NsId)
  /-- `ns->version++` -/
  | bumpVersion
  /-- `current_version = ns->version` -/
  | loadVersion
  /-- the iteration that leaves the loop of `lrcu_synchronize_ns` -/
  | waitSynchronized
  /-- the iteration that leaves the loop of `lrcu_barrier_ns` -/
  | waitProcessed
  /-- `lrcu_ns_destructor(h->worker_ns[id], true)` -/
  | destructWorkerNs (id : NsId)
  deriving DecidableEq

/-! ## The functions -/

def lrcuWriteBarrierNs (id : NsId) : List Instr :=
  [.loadNs id, .bumpVersion]

def lrcuSynchronizeNs (id : NsId) : List Instr :=
  [.loadNs id, .loadVersion, .waitSynchronized]

def lrcuBarrierNs (id : NsId) : List Instr :=
  lrcuSynchronizeNs id ++ [.loadNs id, .loadVersion, .waitProcessed]

def lrcuNsInit (id : NsId) : List Instr :=
  [.lockNsLock, .assertNoNs id, .installNs id, .installWorkerNs id, .unlockNsLock]

def lrcuNsDeinitSafe (id : NsId) : List Instr :=
  [.lockNsLock, .loadNs id, .clearNs id] ++ lrcuWriteBarrierNs id ++ [.unlockNsLock]

def lrcuNsDeinit (id : NsId) : List Instr :=
  [.lockNsLock, .loadNs id, .clearNs id] ++ lrcuWriteBarrierNs id ++ lrcuBarrierNs id ++
    [.destructWorkerNs id, .clearWorkerNs id, .unlockNsLock]

/-- The functions that a thread may call. -/
inductive HandlerCall
  | lrcuWriteBarrierNs (id : NsId)
  | lrcuSynchronizeNs (id : NsId)
  | lrcuBarrierNs (id : NsId)
  | lrcuNsInit (id : NsId)
  | lrcuNsDeinitSafe (id : NsId)
  | lrcuNsDeinit (id : NsId)

def HandlerCall.code : HandlerCall → List Instr
  | .lrcuWriteBarrierNs id => LightRcu.lrcuWriteBarrierNs id
  | .lrcuSynchronizeNs id => LightRcu.lrcuSynchronizeNs id
  | .lrcuBarrierNs id => LightRcu.lrcuBarrierNs id
  | .lrcuNsInit id => LightRcu.lrcuNsInit id
  | .lrcuNsDeinitSafe id => LightRcu.lrcuNsDeinitSafe id
  | .lrcuNsDeinit id => LightRcu.lrcuNsDeinit id

/-! ## The handler and the agents -/

/-- A thread in a call: what it has still to execute, and its variables `ns`
and `current_version`. -/
structure HandlerThread where
  code : List Instr
  ns : Nat
  currentVersion : Nat

/-- Where the worker is in its loop over the namespaces. -/
inductive HandlerWorkerPc
  | scan (i : NsId)
  | callbacks (i : NsId) (ns : Nat)
  | reclaimTest (i : NsId) (ns : Nat)
  | reclaimLock (i : NsId) (ns : Nat)
  | reclaim (i : NsId) (ns : Nat)
  | writeBarrier (i : NsId) (ns : Nat)
  | bump (i : NsId) (ns target : Nat)
  | processed (i : NsId) (ns : Nat)
  deriving DecidableEq

structure HandlerState (Thread : Type*) where
  nsLock : Option (Agent Thread)
  ns : NsId → Option Nat
  workerNs : NsId → Option Nat
  /-- The allocated namespaces by their addresses. -/
  heap : Nat → Option LrcuNamespace
  nextAddress : Nat
  thread : Thread → HandlerThread
  worker : HandlerWorkerPc
  /-- An assertion has failed, or a freed namespace was accessed. -/
  failed : Bool

inductive HandlerAction (Thread : Type*)
  | call (t : Thread) (function : HandlerCall)
  | thread (t : Thread)
  /-- A step of the worker.  Where it runs callbacks, it destroys so many of
  them and stores that `processed_version`. -/
  | worker (destroyed processedVersion : Nat)
  /-- Readers and callers of `lrcu_call_ns` change a namespace. -/
  | users (ns : Nat) (threads : List LrcuLocalNamespace) (calls : Nat)

variable {Thread : Type*} [DecidableEq Thread]

/-- The state that `__lrcu_init` leaves. -/
def handlerInit (Thread : Type*) : HandlerState Thread where
  nsLock := none
  ns := fun _ => none
  workerNs := fun _ => none
  heap := fun _ => none
  nextAddress := 0
  thread := fun _ => ⟨[], 0, 0⟩
  worker := .scan 0
  failed := false

namespace HandlerState

def fail (state : HandlerState Thread) : HandlerState Thread :=
  { state with failed := true }

def setThread (state : HandlerState Thread) (t : Thread) (thread : HandlerThread) :
    HandlerState Thread :=
  { state with thread := Function.update state.thread t thread }

def setNamespace (state : HandlerState Thread) (address : Nat)
    (found : Option LrcuNamespace) : HandlerState Thread :=
  { state with heap := Function.update state.heap address found }

/-- An access to the namespace at an address, which fails once it is freed. -/
def access (state : HandlerState Thread) (address : Nat)
    (use : LrcuNamespace → Option (HandlerState Thread)) : Option (HandlerState Thread) :=
  match state.heap address with
  | some found => use found
  | none => some state.fail

end HandlerState

/-- Execute one instruction of a thread, with `rest` still to follow. -/
def execute (state : HandlerState Thread) (t : Thread) (rest : List Instr) :
    Instr → Option (HandlerState Thread)
  | .lockNsLock =>
      if state.nsLock = none then
        some ({ state with nsLock := some (.thread t) }.setThread t
          { state.thread t with code := rest })
      else none
  | .unlockNsLock =>
      some ({ state with nsLock := none }.setThread t { state.thread t with code := rest })
  | .loadNs id =>
      match state.ns id with
      | some ns => some (state.setThread t { state.thread t with code := rest, ns := ns })
      | none => some state.fail
  | .assertNoNs id =>
      if state.ns id = none then
        some (state.setThread t { state.thread t with code := rest })
      else some state.fail
  | .installNs id =>
      match state.workerNs id with
      | some ns =>
          some ({ state with ns := Function.update state.ns id (some ns) }.setThread t
            { state.thread t with code := rest, ns := ns })
      | none =>
          -- `LRCU_CALLOC`, `ns->version = 1` and the registration of the worker
          some ({ state.setNamespace state.nextAddress (some ⟨1, 0, [⟨0, 0⟩], 0, 0⟩) with
              ns := Function.update state.ns id (some state.nextAddress)
              nextAddress := state.nextAddress + 1 }.setThread t
            { state.thread t with code := rest, ns := state.nextAddress })
  | .installWorkerNs id =>
      some ({ state with
          workerNs := Function.update state.workerNs id (some (state.thread t).ns) }.setThread t
        { state.thread t with code := rest })
  | .clearNs id =>
      some ({ state with ns := Function.update state.ns id none }.setThread t
        { state.thread t with code := rest })
  | .clearWorkerNs id =>
      some ({ state with workerNs := Function.update state.workerNs id none }.setThread t
        { state.thread t with code := rest })
  | .bumpVersion =>
      state.access (state.thread t).ns fun found =>
        some ((state.setNamespace (state.thread t).ns
            (some { found with version := u64Succ found.version })).setThread t
          { state.thread t with code := rest })
  | .loadVersion =>
      state.access (state.thread t).ns fun found =>
        some (state.setThread t
          { state.thread t with code := rest, currentVersion := found.version })
  | .waitSynchronized =>
      state.access (state.thread t).ns fun found =>
        if found.threads.all fun lns =>
            lns.counter == 0 || decide ((state.thread t).currentVersion < lns.version) then
          some (state.setThread t { state.thread t with code := rest })
        else none
  | .waitProcessed =>
      state.access (state.thread t).ns fun found =>
        if (state.thread t).currentVersion < found.processedVersion then
          some (state.setThread t { state.thread t with code := rest })
        else none
  | .destructWorkerNs id =>
      match state.workerNs id with
      | none => some state.fail
      | some ns =>
          state.access ns fun found =>
            some ((state.setNamespace ns (lrcuNsDestructor found true)).setThread t
              { state.thread t with code := rest })

/-- One step of the loop of `lrcu_worker` over `nsMax` namespaces. -/
def handlerWorkerStep (nsMax : Nat) (state : HandlerState Thread)
    (destroyed processedVersion : Nat) : Option (HandlerState Thread) :=
  let next := fun i : NsId => HandlerWorkerPc.scan (if i + 1 < nsMax then i + 1 else 0)
  match state.worker with
  | .scan i =>
      match state.workerNs i with
      | none => some { state with worker := next i }
      | some ns => some { state with worker := .callbacks i ns }
  | .callbacks i ns =>
      state.access ns fun found =>
        some { state.setNamespace ns (some { found with
            freeCallbacks := 0
            workerCallbacks :=
              found.freeCallbacks + found.workerCallbacks - destroyed
            processedVersion := processedVersion }) with worker := .reclaimTest i ns }
  | .reclaimTest i ns =>
      state.access ns fun found =>
        if found.workerCallbacks = 0 ∧ state.workerNs i ≠ state.ns i then
          some { state with worker := .reclaimLock i ns }
        else some { state with worker := .writeBarrier i ns }
  | .reclaimLock i ns =>
      if state.nsLock = none then
        some { state with nsLock := some .worker, worker := .reclaim i ns }
      else none
  | .reclaim i ns =>
      state.access ns fun found =>
        if state.workerNs i ≠ state.ns i ∧ found.freeCallbacks = 0 then
          match lrcuNsDestructor found false with
          | none =>
              some { state.setNamespace ns none with
                workerNs := Function.update state.workerNs i none
                nsLock := none
                worker := next i }
          | some left =>
              some { state.setNamespace ns (some left) with
                nsLock := none
                worker := .writeBarrier i ns }
        else some { state with nsLock := none, worker := .writeBarrier i ns }
  | .writeBarrier i ns =>
      match state.ns i with
      | some target => some { state with worker := .bump i ns target }
      | none => some state.fail
  | .bump i ns target =>
      state.access target fun found =>
        some { state.setNamespace target
            (some { found with version := u64Succ found.version }) with
          worker := .processed i ns }
  | .processed i ns =>
      state.access ns fun found =>
        if found.workerCallbacks = 0 then
          some { state.setNamespace ns
              (some { found with processedVersion := found.version }) with
            worker := next i }
        else some { state with worker := next i }

def handlerStep (nsMax : Nat) (state : HandlerState Thread) :
    HandlerAction Thread → Option (HandlerState Thread)
  | .call t function =>
      if state.failed = false ∧ (state.thread t).code = [] then
        some (state.setThread t { state.thread t with code := function.code })
      else none
  | .thread t =>
      if state.failed then none
      else
        match (state.thread t).code with
        | [] => none
        | instr :: rest => execute state t rest instr
  | .worker destroyed processedVersion =>
      if state.failed then none
      else handlerWorkerStep nsMax state destroyed processedVersion
  | .users ns threads calls =>
      if state.failed then none
      else
        match state.heap ns with
        | none => none
        | some found =>
            some (state.setNamespace ns (some { found with
              threads := threads
              freeCallbacks := found.freeCallbacks + calls }))

end LightRcu
