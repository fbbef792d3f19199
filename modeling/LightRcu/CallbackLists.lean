import LightRcu.NamespaceSteps
import LightRcu.PointerChains

/-!
# The callback lists in memory

The lists of `list.h` as they lie in memory, and what `lrcu_call_ns`,
`lrcu_call_head_ns` and `lrcu_worker` do to those of a namespace.  A section
under `list_lock` or `list_hlock` is one step, which stores the head of a free
list once.  The tests of `lrcu_list_empty` in the worker, which it makes outside
of these sections, are steps of their own.  The assertions of
`lrcu_list_check_loop` are left out.
-/

namespace LightRcu

/-! ## `list.h` -/

section ListH

variable {Addr : Type*} [DecidableEq Addr]

/-- The `next` fields and the head afterwards. -/
def lrcuListInsert (next : Addr → Option Addr) (head : Option Addr) (e : Addr) :
    (Addr → Option Addr) × Option Addr :=
  if head = none then (Function.update next e none, some e)
  else (Function.update next e head, some e)

/-- The `while(e)` loop, which is followed for as many steps as there is
fuel. -/
def lrcuListGetTailLoop (next : Addr → Option Addr) :
    Nat → Option Addr → Option Addr → Option (Option Addr)
  | 0, _, _ => none
  | _ + 1, none, ePrev => some ePrev
  | fuel + 1, some e, _ => lrcuListGetTailLoop next fuel (next e) (some e)

def lrcuListGetTail (next : Addr → Option Addr) (fuel : Nat) (head : Option Addr) :
    Option (Option Addr) :=
  lrcuListGetTailLoop next fuel head none

/-- The `next` fields and the two heads afterwards, unless
`LRCU_ASSERT(e_prev)` fails. -/
def lrcuListSplice (next : Addr → Option Addr) (fuel : Nat) (lh lt : Option Addr) :
    Option ((Addr → Option Addr) × Option Addr × Option Addr) :=
  if lt = none then some (next, lh, lt)
  else if lh = none then some (next, lt, none)
  else
    (lrcuListGetTail next fuel lh).bind fun ePrev =>
      ePrev.map fun ePrev => (Function.update next ePrev lt, lh, none)

/-- The `next` fields and the head afterwards, unless `LRCU_ASSERT(t)` fails. -/
def lrcuListUnlinkNext (next : Addr → Option Addr) (head e : Option Addr) :
    Option ((Addr → Option Addr) × Option Addr) :=
  match e with
  | none => head.map fun t => (Function.update next t none, next t)
  | some e =>
      (next e).map fun t =>
        (Function.update (Function.update next t none) e (next t), head)

/-- `__lrcu_list_for_each_get___n`: the new `n` and the new `n_prev`. -/
def lrcuListForEachGetN (next : Addr → Option Addr) (head n nPrev : Option Addr) :
    Option Addr × Option Addr :=
  match nPrev with
  | none => if n = none ∨ n ≠ head then (head, none) else (n.bind next, head)
  | some prev => if next prev = n then (n.bind next, n) else (next prev, some prev)

end ListH

/-! ## The lists of a namespace -/

/-- The lists of `lrcu_call_ns`, or those of `lrcu_call_head_ns`. -/
inductive CallKind
  | list
  | hlist
  deriving DecidableEq, Repr

/-- Where the worker is with its lists.  Once an iteration of a loop has set `n`
and `n_prev`, they stay with it. -/
inductive ListsPc (Addr : Type*)
  | testFree (kind : CallKind)
  | splice (kind : CallKind)
  | testWorker
  | forEach (kind : CallKind) (n nPrev : Option Addr)
  | lookup (kind : CallKind) (n : Addr) (nPrev : Option Addr)
  /-- in `ptr->deinit(ptr->ptr)` -/
  | deinit (n : Addr) (nPrev : Option Addr)
  | unlink (kind : CallKind) (n : Addr) (nPrev : Option Addr)
  | freeNode (n : Addr) (nPrev : Option Addr)
  | callFunc (n : Addr) (nPrev : Option Addr)
  /-- in `h->func(h)` -/
  | func (n : Addr) (nPrev : Option Addr)
  deriving DecidableEq, Repr

/-- The lists in memory and what has become of the objects.  The objects of a
kind are numbered in the order of their calls. -/
structure CallLists (Addr : Type*) where
  next : Addr → Option Addr
  freeList : CallKind → Option Addr
  workerList : CallKind → Option Addr
  /-- the object of a node -/
  obj : Addr → ObjId
  /-- the calls that memory is in use by -/
  owner : Addr → Option CallKind
  registered : CallKind → Nat
  invocations : CallKind → ObjId → Nat
  destroyed : CallKind → List ObjId
  worker : ListsPc Addr

/-- A call that is handed the memory for its node, by `LRCU_MALLOC` or by its
own caller, or a step of the worker, with the answer of
`lrcu_rangetree_find`. -/
inductive CallListsAction (Addr : Type*)
  | call (kind : CallKind) (e : Addr)
  | worker (held : Bool)
  deriving DecidableEq, Repr

variable {Addr : Type*} [DecidableEq Addr]

def callListsInit : CallLists Addr where
  next := fun _ => none
  freeList := fun _ => none
  workerList := fun _ => none
  obj := fun _ => 0
  owner := fun _ => none
  registered := fun _ => 0
  invocations := fun _ _ => 0
  destroyed := fun _ => []
  worker := .testFree .list

/-- `lrcu_call_ns` or `lrcu_call_head_ns`, by any thread, also by the worker in
a destructor, without the debug check behind the insert.  A node of
`lrcu_list_add` comes with its `next` cleared. -/
def callQueueStep (state : CallLists Addr) (kind : CallKind) (e : Addr) :
    Option (CallLists Addr) :=
  if state.owner e = none then
    let next := match kind with
      | .list => Function.update state.next e none
      | .hlist => state.next
    let (next, head) := lrcuListInsert next (state.freeList kind) e
    some { state with
      next := next
      freeList := Function.update state.freeList kind head
      obj := Function.update state.obj e (state.registered kind)
      owner := Function.update state.owner e (some kind)
      registered := Function.update state.registered kind (state.registered kind + 1) }
  else none

namespace CallLists

/-- The destructor of an object is entered. -/
def invoke (state : CallLists Addr) (kind : CallKind) (obj : ObjId) : CallLists Addr :=
  { state with
    invocations := Function.update state.invocations kind
      (Function.update (state.invocations kind) obj (state.invocations kind obj + 1)) }

/-- The object is done with. -/
def settle (state : CallLists Addr) (kind : CallKind) (obj : ObjId) : CallLists Addr :=
  { state with
    destroyed := Function.update state.destroyed kind (obj :: state.destroyed kind) }

/-- The memory of a node is free again. -/
def release (state : CallLists Addr) (n : Addr) : CallLists Addr :=
  { state with owner := Function.update state.owner n none }

end CallLists

/-- A step of `lrcu_worker` with its lists, without the debug checks on them. -/
def workerListsStep (state : CallLists Addr) (held : Bool) : Option (CallLists Addr) :=
  match state.worker with
  | .testFree kind =>
      if state.freeList kind = none then
        some { state with
          worker := match kind with
            | .list => .testFree .hlist
            | .hlist => .testWorker }
      else some { state with worker := .splice kind }
  | .splice kind =>
      (lrcuListSplice state.next (state.registered kind + 1) (state.workerList kind)
        (state.freeList kind)).map fun (next, lh, lt) =>
          { state with
            next := next
            workerList := Function.update state.workerList kind lh
            freeList := Function.update state.freeList kind lt
            worker := match kind with
              | .list => .testFree .hlist
              | .hlist => .testWorker }
  | .testWorker =>
      if state.workerList .list = none ∧ state.workerList .hlist = none then
        some { state with worker := .testFree .list }
      else some { state with worker := .forEach .list none none }
  | .forEach kind n nPrev =>
      match lrcuListForEachGetN state.next (state.workerList kind) n nPrev with
      | (some n, nPrev) => some { state with worker := .lookup kind n nPrev }
      | (none, _) =>
          some { state with
            worker := match kind with
              | .list => .forEach .hlist none none
              | .hlist => .testFree .list }
  | .lookup kind n nPrev =>
      if held then some { state with worker := .forEach kind (some n) nPrev }
      else
        match kind with
        | .list => some { state.invoke .list (state.obj n) with worker := .deinit n nPrev }
        | .hlist => some { state with worker := .unlink .hlist n nPrev }
  | .deinit n nPrev => some { state with worker := .unlink .list n nPrev }
  | .unlink kind n nPrev =>
      (lrcuListUnlinkNext state.next (state.workerList kind) nPrev).map fun (next, head) =>
        let unlinked := { state with
          next := next
          workerList := Function.update state.workerList kind head }
        match kind with
        | .list =>
            { unlinked.settle .list (state.obj n) with worker := .freeNode n nPrev }
        | .hlist => { unlinked with worker := .callFunc n nPrev }
  | .freeNode n nPrev => some { state.release n with worker := .forEach .list (some n) nPrev }
  | .callFunc n nPrev =>
      some { ((state.invoke .hlist (state.obj n)).settle .hlist (state.obj n)).release n with
        worker := .func n nPrev }
  | .func n nPrev => some { state with worker := .forEach .hlist (some n) nPrev }

def callListsStep (state : CallLists Addr) : CallListsAction Addr → Option (CallLists Addr)
  | .call kind e => callQueueStep state kind e
  | .worker held => workerListsStep state held

end LightRcu
