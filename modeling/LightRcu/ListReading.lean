import LightRcu.CallbackLists
import LightRcu.Execution

/-!
# Reading a list while it is written

One reader walks a list with `lrcu_list_for_each` inside a read section, and one
writer inserts and unlinks elements.  The steps are the single loads and stores
of `__lrcu_list_for_each_get___n`, `lrcu_list_insert` and
`lrcu_list_unlink_next`.  As the reader does not leave its section, no piece of
memory is inserted twice.

Builds with `LRCU_LIST_DEBUG` call `lrcu_list_check_loop` before the walk and
behind each change of the list, which aborts them from `100000` elements on.
These checks store nothing and are left out.
-/

namespace LightRcu

/-- Where the reader is in its walk.  The iteration variables `n` and `n_prev`
of the macro are kept where they are not `NULL`. -/
inductive WalkPc (Addr : Type*)
  | idle
  /-- before `n = lh->head` -/
  | loadHead
  /-- before `n != lh->head` -/
  | testHead (n : Addr)
  /-- before `n_prev = lh->head` -/
  | loadPrev (n : Addr)
  /-- before `n = n->next` -/
  | loadNext (n : Addr) (nPrev : Option Addr)
  /-- before `n_prev->next == n` -/
  | testNext (n nPrev : Addr)
  /-- before `n = n_prev->next` -/
  | loadBehind (nPrev : Addr)
  | ended
  deriving DecidableEq, Repr

/-- Where the writer is in `lrcu_list_insert` of the element `e`, or in
`lrcu_list_unlink_next` behind the element `e`. -/
inductive ListWriterPc (Addr : Type*)
  | idle
  | insertTest (e : Addr)
  | insertLoad (e : Addr)
  /-- before `e->next = t` -/
  | insertNext (e : Addr) (t : Option Addr)
  /-- before `lh->head = e` -/
  | insertHead (e : Addr)
  | unlinkLoad (e : Option Addr)
  | unlinkNext (e : Option Addr) (t : Addr)
  /-- before `t->next = NULL` -/
  | unlinkClear (e : Option Addr) (t : Addr) (tn : Option Addr)
  /-- before `lh->head = tn` or `e->next = t2` -/
  | unlinkStore (e : Option Addr) (t : Addr) (tn : Option Addr)
  deriving DecidableEq, Repr

structure ListReading (Addr : Type*) where
  next : Addr → Option Addr
  head : Option Addr
  walk : WalkPc Addr
  writer : ListWriterPc Addr
  /-- the elements that have been inserted and not been unlinked, in order -/
  members : List Addr
  /-- what an insertion may not take: the elements, now or before -/
  used : Addr → Bool
  /-- the elements whose `next` an unlink has cleared while another was behind -/
  lost : Addr → Bool
  visited : List Addr
  /-- the elements when the walk began -/
  startMembers : List Addr

inductive ListReadingAction (Addr : Type*)
  /-- the reader starts its walk -/
  | begin
  | reader
  | insert (e : Addr)
  /-- the writer unlinks the element behind `e` -/
  | unlink (e : Option Addr)
  | writer
  deriving DecidableEq, Repr

variable {Addr : Type*}

/-- A list of the given elements, before the walk and between two operations of
the writer. -/
def listReadingInit (next : Addr → Option Addr) (head : Option Addr) (members : List Addr)
    (used : Addr → Bool) : ListReading Addr where
  next := next
  head := head
  walk := .idle
  writer := .idle
  members := members
  used := used
  lost := fun _ => false
  visited := []
  startMembers := []

/-- Where an iteration with these values of its variables begins. -/
def walkIteration : Option Addr → Option Addr → WalkPc Addr
  | none, _ => .loadHead
  | some n, none => .testHead n
  | some n, some nPrev => .testNext n nPrev

namespace ListReading

/-- The element behind another one, or the first one. -/
def behind (state : ListReading Addr) : Option Addr → Option Addr
  | none => state.head
  | some e => state.next e

/-- The iteration has fetched `n`, for which the body is executed, or `NULL`. -/
def arrive (state : ListReading Addr) : Option Addr → Option Addr → ListReading Addr
  | none, _ => { state with walk := .ended }
  | some n, nPrev =>
      { state with walk := walkIteration (some n) nPrev, visited := n :: state.visited }

@[simp]
theorem arrive_walk (state : ListReading Addr) (pc : WalkPc Addr) (n nPrev : Option Addr) :
    ({ state with walk := pc } : ListReading Addr).arrive n nPrev = state.arrive n nPrev := by
  cases n <;> rfl

end ListReading

variable [DecidableEq Addr]

/-- A step of the reader. -/
def walkStep (state : ListReading Addr) : Option (ListReading Addr) :=
  match state.walk with
  | .idle | .ended => none
  | .loadHead => some (state.arrive state.head none)
  | .testHead n =>
      some { state with walk := if some n ≠ state.head then .loadHead else .loadPrev n }
  | .loadPrev n => some { state with walk := .loadNext n state.head }
  | .loadNext n nPrev => some (state.arrive (state.next n) nPrev)
  | .testNext n nPrev =>
      some { state with
        walk := if state.next nPrev = some n then .loadNext n (some n) else .loadBehind nPrev }
  | .loadBehind nPrev => some (state.arrive (state.next nPrev) (some nPrev))

/-- A step of the writer.  A failing `LRCU_ASSERT` is no step. -/
def listWriterStep (state : ListReading Addr) : Option (ListReading Addr) :=
  match state.writer with
  | .idle => none
  | .insertTest e =>
      some { state with
        writer := if state.head = none then .insertNext e none else .insertLoad e }
  | .insertLoad e => some { state with writer := .insertNext e state.head }
  | .insertNext e t =>
      some { state with next := Function.update state.next e t, writer := .insertHead e }
  | .insertHead e =>
      some { state with head := some e, members := e :: state.members, writer := .idle }
  | .unlinkLoad e => (state.behind e).map fun t => { state with writer := .unlinkNext e t }
  | .unlinkNext e t => some { state with writer := .unlinkClear e t (state.next t) }
  | .unlinkClear e t tn =>
      some { state with
        next := Function.update state.next t none
        lost := if tn = none then state.lost else Function.update state.lost t true
        writer := .unlinkStore e t tn }
  | .unlinkStore none t tn =>
      some { state with head := tn, members := state.members.erase t, writer := .idle }
  | .unlinkStore (some e) t tn =>
      some { state with
        next := Function.update state.next e tn
        members := state.members.erase t
        writer := .idle }

/-- The walk begins at any point of an operation of the writer.  The writer
inserts new elements, and unlinks what is behind an element or the first
one. -/
def listReadingStep (state : ListReading Addr) :
    ListReadingAction Addr → Option (ListReading Addr)
  | .begin =>
      if state.walk = .idle then
        some { state with
          walk := walkIteration none none
          startMembers := state.members }
      else none
  | .reader => walkStep state
  | .insert e =>
      if state.writer = .idle ∧ state.used e = false then
        some { state with
          used := Function.update state.used e true
          writer := .insertTest e }
      else none
  | .unlink e =>
      if state.writer = .idle ∧ (∀ a ∈ e, a ∈ state.members) ∧ state.behind e ≠ none then
        some { state with writer := .unlinkLoad e }
      else none
  | .writer => listWriterStep state

/-- The element whose `next` the next step of the reader loads. -/
def WalkPc.loads : WalkPc Addr → Option Addr
  | .loadNext n _ => some n
  | .testNext _ nPrev | .loadBehind nPrev => some nPrev
  | .idle | .loadHead | .testHead _ | .loadPrev _ | .ended => none

/-- The reader does not load the `next` field of an element after an unlink has
cleared it in front of another element. -/
def LoadsIntact (state : ListReading Addr) (action : ListReadingAction Addr) : Prop :=
  action = .reader → ∀ a ∈ state.walk.loads, state.lost a = false

/-! ## Undisturbed operations -/

/-- Undisturbed, an iteration fetches what the macro computes. -/
theorem walkIteration_alone {state : ListReading Addr} {n nPrev : Option Addr}
    (started : n = none → nPrev = none) (at_ : state.walk = walkIteration n nPrev) :
    ∃ k, Execution.run listReadingStep state (List.replicate k .reader) =
      some (state.arrive (lrcuListForEachGetN state.next state.head n nPrev).1
        (lrcuListForEachGetN state.next state.head n nPrev).2) := by
  cases n with
  | none =>
      obtain rfl := started rfl
      refine ⟨1, ?_⟩
      simp [Execution.run, listReadingStep, walkStep, at_, walkIteration, lrcuListForEachGetN]
  | some n =>
      cases nPrev with
      | none =>
          by_cases first : some n = state.head
          · have fetched : lrcuListForEachGetN state.next state.head (some n) none =
                (state.next n, state.head) := if_neg (by simp [← first])
            refine ⟨3, ?_⟩
            rw [fetched]
            simp [Execution.run, listReadingStep, walkStep, at_, walkIteration, first]
          · have fetched : lrcuListForEachGetN state.next state.head (some n) none =
                (state.head, none) := if_pos (Or.inr first)
            refine ⟨2, ?_⟩
            rw [fetched]
            simp [Execution.run, listReadingStep, walkStep, at_, walkIteration, first]
      | some nPrev =>
          refine ⟨2, ?_⟩
          by_cases same : state.next nPrev = some n
          · have fetched : lrcuListForEachGetN state.next state.head (some n) (some nPrev) =
                (state.next n, some n) := if_pos same
            rw [fetched]
            simp [Execution.run, listReadingStep, walkStep, at_, walkIteration, same]
          · have fetched : lrcuListForEachGetN state.next state.head (some n) (some nPrev) =
                (state.next nPrev, some nPrev) := if_neg same
            rw [fetched]
            simp [Execution.run, listReadingStep, walkStep, at_, walkIteration, same]

/-- Undisturbed, an insertion does what the function does. -/
theorem listInsert_alone {state : ListReading Addr} {e : Addr} (idle : state.writer = .idle)
    (unused : state.used e = false) :
    ∃ k, Execution.run listReadingStep state (.insert e :: List.replicate k .writer) =
      some { state with
        next := (lrcuListInsert state.next state.head e).1
        head := (lrcuListInsert state.next state.head e).2
        members := e :: state.members
        used := Function.update state.used e true } := by
  by_cases empty : state.head = none
  · refine ⟨3, ?_⟩
    simp [Execution.run, listReadingStep, listWriterStep, idle, unused, empty, lrcuListInsert]
  · refine ⟨4, ?_⟩
    simp [Execution.run, listReadingStep, listWriterStep, idle, unused, empty, lrcuListInsert]

/-- Undisturbed, an unlink does what the function does. -/
theorem listUnlink_alone {state : ListReading Addr} {e head : Option Addr}
    {next : Addr → Option Addr} (idle : state.writer = .idle)
    (member : ∀ a ∈ e, a ∈ state.members)
    (unlinked : lrcuListUnlinkNext state.next state.head e = some (next, head)) :
    ∃ after, Execution.run listReadingStep state (.unlink e :: List.replicate 4 .writer) =
        some after ∧ after.next = next ∧ after.head = head := by
  cases e with
  | none =>
      obtain ⟨t, first, same⟩ := Option.map_eq_some_iff.mp unlinked
      obtain ⟨rfl, rfl⟩ := Prod.mk.injEq .. ▸ same
      simp [Execution.run, listReadingStep, listWriterStep, idle, ListReading.behind, first]
  | some e =>
      obtain ⟨t, found, same⟩ := Option.map_eq_some_iff.mp unlinked
      obtain ⟨rfl, rfl⟩ := Prod.mk.injEq .. ▸ same
      simp [Execution.run, listReadingStep, listWriterStep, idle, ListReading.behind, found,
        member e rfl]

end LightRcu
