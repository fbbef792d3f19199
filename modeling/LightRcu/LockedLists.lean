import LightRcu.CallbackLists
import LightRcu.Spinlock

/-!
# The callback lists under their locks

The sections under `list_lock` and `list_hlock`, access by access.  Threads run
through `lrcu_call_ns` and `lrcu_call_head_ns`, and the worker through its
splice: a lock is a word on which `spinlock.c` works, and between its calls each
load or store of a list is a step of its own.  The rest of the worker, which
touches its private lists only, goes as in `workerListsStep`.  The assertions of
`lrcu_list_check_loop` are left out: `LockedLists.ChecksPass` says of a step that
those which belong to it hold.
-/

namespace LightRcu

variable {Thread Addr : Type*}

/-- Where a thread is in `lrcu_call_ns` or `lrcu_call_head_ns`. -/
inductive QueuePc (Addr : Type*)
  | idle
  /-- in `lrcu_spin_lock(&ns->list_lock)` -/
  | lockList
  /-- in `lrcu_spin_lock(&ns->list_hlock)` -/
  | lockHlist (e : Addr)
  /-- before `LRCU_MALLOC` -/
  | malloc
  /-- before `e->next = NULL` in `__lrcu_list_add` -/
  | clearNext (e : Addr)
  /-- before the `lrcu_list_empty` of `lrcu_list_insert` -/
  | testEmpty (kind : CallKind) (e : Addr)
  /-- before the load of `e->next = lh->head` -/
  | loadHead (kind : CallKind) (e : Addr)
  | storeNext (kind : CallKind) (e : Addr) (t : Option Addr)
  /-- before `lh->head = e` -/
  | storeHead (kind : CallKind) (e : Addr)
  | unlock (kind : CallKind)
  deriving DecidableEq, Repr

/-- Where the worker is in the section of its splice, with the local variables
of `lrcu_list_splice` and `lrcu_list_get_tail`. -/
inductive SplicePc (Addr : Type*)
  | lock
  /-- before `lrcu_list_empty(lt)` -/
  | testFree
  /-- before `lrcu_list_empty(lh)` -/
  | testWorker
  /-- before the load of `*lh = *lt` -/
  | loadFree
  | storeWorker (t : Option Addr)
  /-- before `t = lt->head` -/
  | loadFirst
  /-- before `e = lh->head` -/
  | getTail (t : Option Addr)
  | getTailLoop (e ePrev t : Option Addr)
  /-- before `e_prev->next = t` -/
  | storeTail (ePrev t : Option Addr)
  /-- before `lrcu_list_init(lt)` -/
  | clearFree
  | unlock
  deriving DecidableEq, Repr

structure LockedLists (Thread Addr : Type*) where
  lists : CallLists Addr
  lock : CallKind → SpinState Thread
  /-- Memory that a call has in hand and has not queued. -/
  inHand : Addr → Bool
  caller : Thread → QueuePc Addr
  /-- Where the worker is while its place is a splice. -/
  splice : SplicePc Addr

inductive LockedListsAction (Thread Addr : Type*)
  /-- the entry into `lrcu_call_ns` -/
  | call (t : Thread)
  /-- the entry into `lrcu_call_head_ns` with a head of the caller -/
  | callHead (t : Thread) (e : Addr)
  /-- what `LRCU_MALLOC` returns -/
  | malloc (t : Thread) (e : Option Addr)
  | caller (t : Thread)
  /-- with the answer of `lrcu_rangetree_find` -/
  | worker (held : Bool)
  deriving DecidableEq, Repr

variable [DecidableEq Thread] [DecidableEq Addr]

def lockedListsInit (Thread Addr : Type*) [DecidableEq Addr] : LockedLists Thread Addr where
  lists := callListsInit
  lock := fun _ => spinInit Thread
  inHand := fun _ => false
  caller := fun _ => .idle
  splice := .lock

/-- One access of `lrcu_spin_lock`. -/
def lrcuSpinLockStep (lock : SpinState Thread) (t : Thread) : Option (SpinState Thread) :=
  if (lock.thread t).pc = .idle then spinStep lock (.lockXadd t) else spinStep lock (.lockSpin t)

/-- One access of `lrcu_spin_unlock`. -/
def lrcuSpinUnlockStep (lock : SpinState Thread) (t : Thread) : Option (SpinState Thread) :=
  if (lock.thread t).pc = .idle then spinStep lock (.unlockLoad t)
  else spinStep lock (.unlockStore t)

/-- The worker is in a destructor. -/
def ListsPc.inDestructor : ListsPc Addr → Bool
  | .deinit .. | .func .. => true
  | _ => false

/-- What the worker does behind the splice. -/
def ListsPc.afterSplice : CallKind → ListsPc Addr
  | .list => .testFree .hlist
  | .hlist => .testWorker

namespace LockedLists

def setLock (state : LockedLists Thread Addr) (kind : CallKind) (lock : SpinState Thread) :
    LockedLists Thread Addr :=
  { state with lock := Function.update state.lock kind lock }

def setCaller (state : LockedLists Thread Addr) (t : Thread) (pc : QueuePc Addr) :
    LockedLists Thread Addr :=
  { state with caller := Function.update state.caller t pc }

def setNext (state : LockedLists Thread Addr) (e : Addr) (target : Option Addr) :
    LockedLists Thread Addr :=
  { state with lists := { state.lists with next := Function.update state.lists.next e target } }

def takeInHand (state : LockedLists Thread Addr) (e : Addr) : LockedLists Thread Addr :=
  { state with inHand := Function.update state.inHand e true }

/-- Nobody uses the memory. -/
def Unused (state : LockedLists Thread Addr) (e : Addr) : Prop :=
  state.lists.owner e = none ∧ state.inHand e = false

instance (state : LockedLists Thread Addr) (e : Addr) : Decidable (state.Unused e) :=
  inferInstanceAs (Decidable (_ ∧ _))

/-- The worker calls in its destructors only. -/
def MayCall (state : LockedLists Thread Addr) (workerThread t : Thread) : Prop :=
  state.caller t = .idle ∧ (t = workerThread → state.lists.worker.inDestructor = true)

instance (state : LockedLists Thread Addr) (workerThread t : Thread) :
    Decidable (state.MayCall workerThread t) :=
  inferInstanceAs (Decidable (_ ∧ _))

end LockedLists

/-- A step of `lrcu_call_ns` or `lrcu_call_head_ns` apart from the allocation, and
from the debug check behind the store of the head. -/
def callerListsStep (state : LockedLists Thread Addr) (t : Thread) :
    Option (LockedLists Thread Addr) :=
  match state.caller t with
  | .idle | .malloc => none
  | .lockList =>
      (lrcuSpinLockStep (state.lock .list) t).map fun lock =>
        (state.setLock .list lock).setCaller t
          (if (lock.thread t).holds then .malloc else .lockList)
  | .lockHlist e =>
      (lrcuSpinLockStep (state.lock .hlist) t).map fun lock =>
        (state.setLock .hlist lock).setCaller t
          (if (lock.thread t).holds then .testEmpty .hlist e else .lockHlist e)
  | .clearNext e => some ((state.setNext e none).setCaller t (.testEmpty .list e))
  | .testEmpty kind e =>
      some (state.setCaller t
        (if state.lists.freeList kind = none then .storeNext kind e none else .loadHead kind e))
  | .loadHead kind e => some (state.setCaller t (.storeNext kind e (state.lists.freeList kind)))
  | .storeNext kind e next => some ((state.setNext e next).setCaller t (.storeHead kind e))
  | .storeHead kind e =>
      some ({ state with
        lists := { state.lists with
          freeList := Function.update state.lists.freeList kind (some e)
          obj := Function.update state.lists.obj e (state.lists.registered kind)
          owner := Function.update state.lists.owner e (some kind)
          registered :=
            Function.update state.lists.registered kind (state.lists.registered kind + 1) }
        inHand := Function.update state.inHand e false }.setCaller t (.unlock kind))
  | .unlock kind =>
      (lrcuSpinUnlockStep (state.lock kind) t).map fun lock =>
        (state.setLock kind lock).setCaller t
          (if (lock.thread t).holds then .unlock kind else .idle)

/-- A step of the worker in the section of its splice, apart from the debug checks
of `lrcu_list_get_tail` and `lrcu_list_splice`.  A failing `LRCU_ASSERT(e_prev)` is
no step. -/
def spliceStep (state : LockedLists Thread Addr) (workerThread : Thread) (kind : CallKind) :
    Option (LockedLists Thread Addr) :=
  match state.splice with
  | .lock =>
      (lrcuSpinLockStep (state.lock kind) workerThread).map fun lock =>
        { state.setLock kind lock with
          splice := if (lock.thread workerThread).holds then .testFree else .lock }
  | .testFree =>
      some { state with
        splice := if state.lists.freeList kind = none then .unlock else .testWorker }
  | .testWorker =>
      some { state with
        splice := if state.lists.workerList kind = none then .loadFree else .loadFirst }
  | .loadFree => some { state with splice := .storeWorker (state.lists.freeList kind) }
  | .storeWorker first =>
      some { state with
        lists := { state.lists with
          workerList := Function.update state.lists.workerList kind first }
        splice := .clearFree }
  | .loadFirst => some { state with splice := .getTail (state.lists.freeList kind) }
  | .getTail first =>
      some { state with splice := .getTailLoop (state.lists.workerList kind) none first }
  | .getTailLoop (some e) _ first =>
      some { state with splice := .getTailLoop (state.lists.next e) (some e) first }
  | .getTailLoop none ePrev first => some { state with splice := .storeTail ePrev first }
  | .storeTail none _ => none
  | .storeTail (some ePrev) first =>
      some { state.setNext ePrev first with splice := .clearFree }
  | .clearFree =>
      some { state with
        lists := { state.lists with freeList := Function.update state.lists.freeList kind none }
        splice := .unlock }
  | .unlock =>
      (lrcuSpinUnlockStep (state.lock kind) workerThread).map fun lock =>
        if (lock.thread workerThread).holds then state.setLock kind lock
        else
          { state.setLock kind lock with
            lists := { state.lists with worker := .afterSplice kind }
            splice := .lock }

def lockedListsStep (workerThread : Thread) (state : LockedLists Thread Addr) :
    LockedListsAction Thread Addr → Option (LockedLists Thread Addr)
  | .call t =>
      if state.MayCall workerThread t then some (state.setCaller t .lockList) else none
  | .callHead t e =>
      if state.MayCall workerThread t ∧ state.Unused e then
        some ((state.takeInHand e).setCaller t (.lockHlist e))
      else none
  | .malloc t e =>
      if state.caller t = .malloc then
        match e with
        | none => some (state.setCaller t (.unlock .list))
        | some e =>
            if state.Unused e then some ((state.takeInHand e).setCaller t (.clearNext e))
            else none
      else none
  | .caller t => callerListsStep state t
  | .worker held =>
      if state.caller workerThread = .idle then
        match state.lists.worker with
        | .splice kind => spliceStep state workerThread kind
        | _ => (workerListsStep state.lists held).map fun lists => { state with lists := lists }
      else none

/-- At most so many threads hold one of the locks or wait for it. -/
def FewContend (limit : Nat) (state : LockedLists Thread Addr) : Prop :=
  ∀ kind, AtMostContend limit (state.lock kind)

end LightRcu
