import LightRcu.Execution
import LightRcu.PointerChains

/-!
# Lock-free queueing

With `LRCU_LIST_ATOMIC`, threads push nodes onto a free list by a
compare-and-swap of its head, and one consumer takes the whole list by another
one and links it behind a private list.  The steps are the single loads, stores
and compare-and-swaps of `lrcu_list_insert_atomic`, `lrcu_list_splice_atomic`,
and the `lrcu_list_unlink_next` with which the consumer removes a node of its
private list before it frees it.  The debug checks of these functions, which
assert that a list is short, are left out.
-/

namespace LightRcu

/-- Where a thread is in `lrcu_list_insert_atomic` of its node. -/
inductive InsertPc (Addr : Type*)
  | idle
  /-- before `t = lh->head` -/
  | loadHead (e : Addr)
  /-- before `e->next = t` -/
  | storeNext (e : Addr) (t : Option Addr)
  /-- before `newt = lrcu_cmpxchg(&lh->head, t, e)` -/
  | cmpxchg (e : Addr) (t : Option Addr)
  deriving DecidableEq, Repr

/-- Where the consumer is.  In `lrcu_list_splice_atomic`, `t` is the local
variable of that name; in `lrcu_list_unlink_next`, `e` is its argument. -/
inductive ConsumerPc (Addr : Type*)
  /-- between two operations, with the element of the private list it is at -/
  | walk (e : Option Addr)
  | testFree
  | loadFree
  | cmpxchg (t : Option Addr)
  | testPrivate (t : Option Addr)
  | storeHead (t : Option Addr)
  /-- `lrcu_list_get_tail` before its loop -/
  | getTail (t : Option Addr)
  | getTailLoop (e ePrev t : Option Addr)
  /-- before `e_prev->next = t` -/
  | storeTail (ePrev t : Option Addr)
  | unlinkLoad (e : Option Addr)
  | unlinkNext (e : Option Addr) (t : Addr)
  /-- before `t->next = NULL` -/
  | unlinkClear (e : Option Addr) (t : Addr) (tn : Option Addr)
  /-- before `lh->head = tn` or `e->next = t2` -/
  | unlinkStore (e : Option Addr) (t : Addr) (tn : Option Addr)
  | free (e : Option Addr) (t : Addr)
  deriving DecidableEq, Repr

/-- What a piece of memory is. -/
inductive NodePlace (Thread : Type*)
  | unused
  | inserting (thread : Thread)
  /-- its insertion has completed and the consumer has not removed it -/
  | inserted
  | removed
  deriving DecidableEq, Repr

structure AtomicQueue (Thread Addr : Type*) where
  next : Addr → Option Addr
  /-- the head of the list that is spliced from, `lt->head` -/
  freeHead : Option Addr
  /-- the head of the list of the consumer, `lh->head` -/
  privateHead : Option Addr
  place : Addr → NodePlace Thread
  inserter : Thread → InsertPc Addr
  consumer : ConsumerPc Addr

inductive AtomicQueueAction (Thread Addr : Type*)
  /-- the thread gets memory for a node, with whatever its `next` holds -/
  | begin (thread : Thread) (e : Addr) (junk : Option Addr)
  | inserter (thread : Thread)
  /-- the consumer calls `lrcu_list_splice_atomic` -/
  | splice
  /-- the consumer goes on to the next element of its list -/
  | advance
  /-- the consumer removes the element behind the one it is at -/
  | unlink
  | consumer
  deriving DecidableEq, Repr

variable {Thread Addr : Type*} [DecidableEq Thread] [DecidableEq Addr]

def atomicQueueInit (Thread Addr : Type*) : AtomicQueue Thread Addr where
  next := fun _ => none
  freeHead := none
  privateHead := none
  place := fun _ => .unused
  inserter := fun _ => .idle
  consumer := .walk none

namespace AtomicQueue

def setInserter (state : AtomicQueue Thread Addr) (thread : Thread) (pc : InsertPc Addr) :
    AtomicQueue Thread Addr :=
  { state with inserter := Function.update state.inserter thread pc }

/-- The element of the private list behind another one, or the first one. -/
def behind (state : AtomicQueue Thread Addr) : Option Addr → Option Addr
  | none => state.privateHead
  | some e => state.next e

end AtomicQueue

/-- A step of `lrcu_list_insert_atomic`. -/
def insertAtomicStep (state : AtomicQueue Thread Addr) (thread : Thread) :
    Option (AtomicQueue Thread Addr) :=
  match state.inserter thread with
  | .idle => none
  | .loadHead e => some (state.setInserter thread (.storeNext e state.freeHead))
  | .storeNext e t =>
      some ({ state with next := Function.update state.next e t }.setInserter thread
        (.cmpxchg e t))
  | .cmpxchg e t =>
      if state.freeHead = t then
        some ({ state with
          freeHead := some e
          place := Function.update state.place e .inserted }.setInserter thread .idle)
      else some (state.setInserter thread (.storeNext e state.freeHead))

/-- A step of `lrcu_list_splice_atomic`, or of `lrcu_list_unlink_next` and the
free behind it.  A failing `LRCU_ASSERT` is no step. -/
def consumerStep (state : AtomicQueue Thread Addr) : Option (AtomicQueue Thread Addr) :=
  match state.consumer with
  | .walk _ => none
  | .testFree =>
      some { state with
        consumer := if state.freeHead = none then .walk none else .loadFree }
  | .loadFree => some { state with consumer := .cmpxchg state.freeHead }
  | .cmpxchg t =>
      if state.freeHead = t then
        some { state with freeHead := none, consumer := .testPrivate t }
      else some { state with consumer := .cmpxchg state.freeHead }
  | .testPrivate t =>
      some { state with
        consumer := if state.privateHead = none then .storeHead t else .getTail t }
  | .storeHead t => some { state with privateHead := t, consumer := .walk none }
  | .getTail t => some { state with consumer := .getTailLoop state.privateHead none t }
  | .getTailLoop (some e) _ t =>
      some { state with consumer := .getTailLoop (state.next e) (some e) t }
  | .getTailLoop none ePrev t => some { state with consumer := .storeTail ePrev t }
  | .storeTail none _ => none
  | .storeTail (some ePrev) t =>
      some { state with
        next := Function.update state.next ePrev t
        consumer := .walk none }
  | .unlinkLoad e =>
      (state.behind e).map fun t => { state with consumer := .unlinkNext e t }
  | .unlinkNext e t => some { state with consumer := .unlinkClear e t (state.next t) }
  | .unlinkClear e t tn =>
      some { state with
        next := Function.update state.next t none
        consumer := .unlinkStore e t tn }
  | .unlinkStore none t tn =>
      some { state with
        privateHead := tn
        place := Function.update state.place t .removed
        consumer := .free none t }
  | .unlinkStore (some e) t tn =>
      some { state with
        next := Function.update state.next e tn
        place := Function.update state.place t .removed
        consumer := .free (some e) t }
  | .free e t =>
      some { state with
        place := Function.update state.place t .unused
        consumer := .walk e }

def atomicQueueStep (state : AtomicQueue Thread Addr) :
    AtomicQueueAction Thread Addr → Option (AtomicQueue Thread Addr)
  | .begin thread e junk =>
      if state.inserter thread = .idle ∧ state.place e = .unused then
        some ({ state with
          next := Function.update state.next e junk
          place := Function.update state.place e (.inserting thread) }.setInserter thread
            (.loadHead e))
      else none
  | .inserter thread => insertAtomicStep state thread
  | .splice =>
      match state.consumer with
      | .walk _ => some { state with consumer := .testFree }
      | _ => none
  | .advance =>
      match state.consumer with
      | .walk e =>
          if state.behind e = none then none
          else some { state with consumer := .walk (state.behind e) }
      | _ => none
  | .unlink =>
      match state.consumer with
      | .walk e =>
          if state.behind e = none then none
          else some { state with consumer := .unlinkLoad e }
      | _ => none
  | .consumer => consumerStep state

namespace ConsumerPc

/-- The chain that a splice has taken from the free list and not linked yet. -/
def taken : ConsumerPc Addr → Option Addr
  | .testPrivate t | .storeHead t | .getTail t | .getTailLoop _ _ t | .storeTail _ t => t
  | _ => none

/-- The rest of the private list that the first store of a removal has cut
off. -/
def cut : ConsumerPc Addr → Option Addr
  | .unlinkStore _ _ tn => tn
  | _ => none

end ConsumerPc

end LightRcu
