import LightRcu.Execution
import Mathlib.Data.List.Basic
import Mathlib.Logic.Function.Basic

/-!
# The ticket lock of `spinlock.c`

The lock word is a `u32` that overlays two `u16` fields: on a little-endian
machine `ticket` is its low half and `users` its high half.  The steps of the
three operations are the single accesses to that word.  The histories of drawn
tickets, acquisitions and releases are recorded beside it.
-/

namespace LightRcu

/-- `lrcu_spinlock_t`, read through its `u` member. -/
abbrev LrcuSpinlock := BitVec 32

namespace LrcuSpinlock

/-- The `s.ticket` member. -/
def ticket (word : LrcuSpinlock) : BitVec 16 := word.setWidth 16

/-- The `s.users` member. -/
def users (word : LrcuSpinlock) : BitVec 16 := (word >>> 16).setWidth 16

/-- A store to the `s.ticket` member. -/
def setTicket (word : LrcuSpinlock) (ticket : BitVec 16) : LrcuSpinlock :=
  word.users ++ ticket

/-- A store to the `s.users` member. -/
def setUsers (word : LrcuSpinlock) (users : BitVec 16) : LrcuSpinlock :=
  users ++ word.ticket

end LrcuSpinlock

/-- `lrcu_atomic_xadd(&t->s.users, 1)`: the new word and the old value. -/
def lrcuAtomicXaddUsers (word : LrcuSpinlock) : LrcuSpinlock × BitVec 16 :=
  (word.setUsers (word.users + 1), word.users)

/-- `lrcu_cmpxchg(&t->u, old, new)`: the new word and the old value. -/
def lrcuCmpxchg (word old new : LrcuSpinlock) : LrcuSpinlock × LrcuSpinlock :=
  (if word = old then new else word, word)

/-- `((unsigned) high << 16) + low`. -/
def packWord (high low : BitVec 16) : LrcuSpinlock :=
  (high.setWidth 32 <<< 16) + low.setWidth 32

/-- The compare-and-swap of `lrcu_spin_trylock`, after `users` was read: the
new word and the value that the function returns. -/
def lrcuSpinTrylock (word : LrcuSpinlock) (me : BitVec 16) : LrcuSpinlock × Nat :=
  let menew := me + 1
  let cmp := packWord me me
  let cmpnew := packWord menew me
  let swapped := lrcuCmpxchg word cmp cmpnew
  if swapped.2 = cmp then (swapped.1, 0) else (swapped.1, 1)

/-- Where a thread is in the operations on the lock. -/
inductive SpinPc
  | idle
  | spinning (me : BitVec 16)
  | trying (me : BitVec 16)
  | unlocking (ticket : BitVec 16)
  deriving DecidableEq, Repr

structure SpinThread where
  holds : Bool
  pc : SpinPc
  /-- What its last `lrcu_spin_trylock` returned. -/
  result : Option Nat
  deriving DecidableEq, Repr

structure SpinState (Thread : Type*) where
  word : LrcuSpinlock
  thread : Thread → SpinThread
  /-- The owner of each ticket, in the order in which they were drawn. -/
  drawn : List Thread
  /-- The threads that acquired the lock, in that order. -/
  acquired : List Thread
  /-- The number of completed unlocks. -/
  released : Nat

/-- One access to the lock word by a thread. -/
inductive SpinAction (Thread : Type*)
  | lockXadd (thread : Thread)
  | lockSpin (thread : Thread)
  | trylockLoad (thread : Thread)
  | trylockCmpxchg (thread : Thread)
  | unlockLoad (thread : Thread)
  | unlockStore (thread : Thread)

variable {Thread : Type*} [DecidableEq Thread]

/-- `LRCU_SPINLOCK_INITIALIZER` before any thread has used the lock. -/
def spinInit (Thread : Type*) : SpinState Thread where
  word := 0
  thread := fun _ => ⟨false, .idle, none⟩
  drawn := []
  acquired := []
  released := 0

/-- A thread that holds the lock may try it again, but does not wait for
itself, and only a thread that holds the lock unlocks it. -/
def spinStep (state : SpinState Thread) :
    SpinAction Thread → Option (SpinState Thread)
  | .lockXadd t =>
      let me := state.thread t
      if me.pc = .idle ∧ me.holds = false then
        let (word, ticket) := lrcuAtomicXaddUsers state.word
        some { state with
          word := word
          thread := Function.update state.thread t { me with pc := .spinning ticket }
          drawn := state.drawn ++ [t] }
      else none
  | .lockSpin t =>
      let me := state.thread t
      match me.pc with
      | .spinning ticket =>
          if state.word.ticket = ticket then
            some { state with
              thread := Function.update state.thread t { me with holds := true, pc := .idle }
              acquired := state.acquired ++ [t] }
          else some state
      | _ => none
  | .trylockLoad t =>
      let me := state.thread t
      if me.pc = .idle then
        some { state with
          thread := Function.update state.thread t { me with pc := .trying state.word.users } }
      else none
  | .trylockCmpxchg t =>
      let me := state.thread t
      match me.pc with
      | .trying users =>
          let (word, result) := lrcuSpinTrylock state.word users
          if result = 0 then
            some { state with
              word := word
              thread := Function.update state.thread t ⟨true, .idle, some result⟩
              drawn := state.drawn ++ [t]
              acquired := state.acquired ++ [t] }
          else
            some { state with
              word := word
              thread := Function.update state.thread t ⟨me.holds, .idle, some result⟩ }
      | _ => none
  | .unlockLoad t =>
      let me := state.thread t
      if me.pc = .idle ∧ me.holds = true then
        some { state with
          thread := Function.update state.thread t
            { me with pc := .unlocking state.word.ticket } }
      else none
  | .unlockStore t =>
      let me := state.thread t
      match me.pc with
      | .unlocking ticket =>
          some { state with
            word := state.word.setTicket (ticket + 1)
            thread := Function.update state.thread t { me with holds := false, pc := .idle }
            released := state.released + 1 }
      | _ => none

/-- A thread that holds the lock or waits for it. -/
def SpinThread.Contends (thread : SpinThread) : Prop :=
  thread.holds = true ∨ ∃ me, thread.pc = .spinning me

/-- At most `limit` threads hold the lock or wait for it. -/
def AtMostContend (limit : Nat) (state : SpinState Thread) : Prop :=
  ∀ threads : List Thread, threads.Nodup →
    (∀ t ∈ threads, (state.thread t).Contends) → threads.length ≤ limit

end LightRcu
