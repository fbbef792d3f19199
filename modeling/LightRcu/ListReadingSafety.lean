import LightRcu.ListReading
import LightRcu.PointerChains

/-!
# What a walk visits

The invariant of a list under one writer, whatever a reader does, and of a walk
towards an element that stays on the list: the element has been visited, or it
is behind the elements that the reader is about to load from, unless an unlink
has cleared their `next` field.
-/

namespace LightRcu

open Execution

variable {Addr : Type*} [DecidableEq Addr] {state after : ListReading Addr} {x : Addr}

/-! ## The list -/

namespace ListReading

/-- The `next` fields, with the one that a running unlink has cleared as it
was. -/
def intact (state : ListReading Addr) : Addr → Option Addr :=
  match state.writer with
  | .unlinkStore _ t tn => Function.update state.next t tn
  | _ => state.next

/-- The element of a running insertion. -/
def Fresh (state : ListReading Addr) (e : Addr) : Prop :=
  e ∉ state.members ∧ e ∉ state.startMembers ∧ state.used e = true

/-- The running unlink removes the element `t` from behind the element `e`. -/
def Unlinks (state : ListReading Addr) (e : Option Addr) (t : Addr) : Prop :=
  ∃ kept rest, state.members = kept ++ t :: rest ∧ e = kept.getLast?

omit [DecidableEq Addr] in
theorem behind_eq (state : ListReading Addr) (e : Option Addr) :
    state.behind e = e.elim state.head state.next := by
  cases e <;> rfl

end ListReading

def ListWriterOk (state : ListReading Addr) : Prop :=
  match state.writer with
  | .idle => True
  | .insertTest e | .insertLoad e => state.Fresh e
  | .insertNext e t => state.Fresh e ∧ t = state.head
  | .insertHead e => state.Fresh e ∧ state.next e = state.head
  | .unlinkLoad e => ∃ t, state.Unlinks e t
  | .unlinkNext e t => state.Unlinks e t
  | .unlinkClear e t tn => state.Unlinks e t ∧ tn = state.next t
  | .unlinkStore e t tn =>
      state.Unlinks e t ∧ state.next t = none ∧ (tn = none ∨ state.lost t = true)

/-- A list under one writer. -/
structure ListReadingOk (state : ListReading Addr) : Prop where
  chain : Chain state.intact state.head state.members
  used : ∀ a ∈ state.members, state.used a = true
  usedStart : ∀ a ∈ state.startMembers, state.used a = true
  writer : ListWriterOk state

/-! ## The walk -/

namespace ListReading

/-- The element `x` is behind `a`, unless `a` has been cut off. -/
def Ahead (state : ListReading Addr) (x a : Addr) : Prop :=
  state.lost a = true ∨ [a, x].Sublist state.members

end ListReading

/-- The reader is on its way to the element `x`. -/
def WalkTowards (state : ListReading Addr) (x : Addr) : Prop :=
  match state.walk with
  | .idle | .loadHead => True
  | .testHead n => n ≠ x
  | .loadPrev n => state.Ahead x n
  | .loadNext n nPrev => state.lost n = true ∨ state.Ahead x n ∧ ∀ p ∈ nPrev, state.Ahead x p
  | .testNext n nPrev => state.Ahead x n ∧ state.Ahead x nPrev
  | .loadBehind nPrev => state.Ahead x nPrev
  | .ended => False

/-- The reader has visited the element `x` or is on its way to it. -/
def WalkReaches (state : ListReading Addr) (x : Addr) : Prop :=
  x ∈ state.visited ∨ WalkTowards state x

/-- What the writer leaves to the reader. -/
structure LeavesAhead (state after : ListReading Addr) : Prop where
  walk : after.walk = state.walk
  visited : after.visited = state.visited
  startMembers : after.startMembers = state.startMembers
  lost : ∀ a, state.lost a = true → after.lost a = true
  stays : ∀ x ∈ state.startMembers, x ∈ after.members → x ∈ state.members
  ahead : ∀ x ∈ after.members, ∀ a, state.Ahead x a → after.Ahead x a

omit [DecidableEq Addr] in
theorem WalkReaches.frame (reaches : WalkReaches state x) (frame : LeavesAhead state after)
    (member : x ∈ after.members) : WalkReaches after x := by
  have ahead := frame.ahead x member
  apply reaches.imp (fun visited => frame.visited ▸ visited)
  unfold WalkTowards
  rw [frame.walk]
  intro towards
  cases pc : state.walk with
  | idle | loadHead => trivial
  | testHead n => simpa [pc] using towards
  | loadPrev n => exact ahead n (by simpa [pc] using towards)
  | loadNext n nPrev =>
      rw [pc] at towards
      exact towards.imp (frame.lost n) fun both =>
        ⟨ahead n both.1, fun p found => ahead p (both.2 p found)⟩
  | testNext n nPrev =>
      rw [pc] at towards
      exact ⟨ahead n towards.1, ahead nPrev towards.2⟩
  | loadBehind nPrev => exact ahead nPrev (by simpa [pc] using towards)
  | ended => simp [pc] at towards

namespace ListReadingOk

theorem next_eq (ok : ListReadingOk state) {a : Addr} (linked : state.lost a = false) :
    state.next a = state.intact a := by
  have writer := ok.writer
  unfold ListWriterOk at writer
  unfold ListReading.intact
  cases pc : state.writer with
  | unlinkStore e t tn =>
      rw [pc] at writer
      obtain ⟨_, cleared, last⟩ := writer
      rcases eq_or_ne a t with rfl | other
      · have none : tn = none := last.resolve_right (by simp [linked])
        simp [cleared, none]
      · exact (Function.update_of_ne other _ _).symm
  | idle | insertTest | insertLoad | insertNext | insertHead | unlinkLoad | unlinkNext
  | unlinkClear => rfl

/-- A load from an element that has not been cut off goes on towards `x`. -/
theorem next_ahead (ok : ListReadingOk state) {a : Addr} (linked : state.lost a = false)
    (ahead : state.Ahead x a) :
    ∃ q, state.next a = some q ∧ (q = x ∨ state.Ahead x q) := by
  have before := ahead.resolve_left (by simp [linked])
  obtain ⟨q, found, reached⟩ := ok.chain.next_before before
  exact ⟨q, (ok.next_eq linked).trans found, reached.imp_right Or.inr⟩

theorem head_ahead (ok : ListReadingOk state) (member : x ∈ state.members) :
    ∃ q, state.head = some q ∧ (q = x ∨ [q, x].Sublist state.members) :=
  ok.chain.head_before member

end ListReadingOk

omit [DecidableEq Addr] in
theorem walkReaches_arrive {q : Addr} {nPrev : Option Addr}
    (reached : q = x ∨ state.Ahead x q) (behind : ∀ p ∈ nPrev, state.Ahead x p) :
    WalkReaches (state.arrive (some q) nPrev) x := by
  rcases eq_or_ne q x with rfl | other
  · exact Or.inl List.mem_cons_self
  · refine Or.inr ?_
    cases nPrev with
    | none => exact other
    | some p => exact ⟨reached.resolve_left other, behind p rfl⟩

theorem visited_of_walkStep (stepped : walkStep state = some after)
    (visited : x ∈ state.visited) : x ∈ after.visited := by
  have arrives : ∀ n nPrev, x ∈ (state.arrive n nPrev).visited := by
    intro n nPrev
    cases n with
    | none => exact visited
    | some n => exact List.mem_cons_of_mem n visited
  cases pc : state.walk <;> simp only [walkStep, pc, Option.some.injEq, reduceCtorEq] at stepped
  all_goals subst stepped
  all_goals first | exact visited | exact arrives _ _

/-- A step of the reader that meets the condition keeps it on its way. -/
theorem WalkReaches.walkStep (reaches : WalkReaches state x) (ok : ListReadingOk state)
    (member : x ∈ state.members) (intact : ∀ a ∈ state.walk.loads, state.lost a = false)
    (stepped : walkStep state = some after) : WalkReaches after x := by
  rcases reaches with visited | towards
  · exact Or.inl (visited_of_walkStep stepped visited)
  unfold WalkTowards at towards
  cases pc : state.walk with
  | idle => simp [LightRcu.walkStep, pc] at stepped
  | loadHead =>
      simp only [LightRcu.walkStep, pc, Option.some.injEq] at stepped
      obtain ⟨q, first, reached⟩ := ok.head_ahead member
      rw [← stepped, first]
      exact walkReaches_arrive (reached.imp_right Or.inr) (by simp)
  | testHead n =>
      simp only [LightRcu.walkStep, pc, Option.some.injEq] at stepped
      rw [pc] at towards
      subst stepped
      refine Or.inr ?_
      by_cases first : some n = state.head
      · obtain ⟨q, found, reached⟩ := ok.head_ahead member
        obtain rfl := Option.some.inj (first.trans found)
        have before := reached.resolve_left towards
        rw [WalkTowards, if_neg (not_not.mpr first)]
        exact Or.inr before
      · rw [WalkTowards, if_pos first]
        trivial
  | loadPrev n =>
      simp only [LightRcu.walkStep, pc, Option.some.injEq] at stepped
      rw [pc] at towards
      subst stepped
      refine Or.inr (towards.imp_right fun before => ⟨Or.inr before, fun p found => ?_⟩)
      -- as `n` is before `x`, the first element is not `x`
      obtain ⟨q, first, reached⟩ := ok.head_ahead member
      obtain rfl := Option.some.inj (first.symm.trans found)
      refine Or.inr (reached.resolve_left ?_)
      rintro rfl
      exact (first ▸ ok.chain).not_before_head before
  | loadNext n nPrev =>
      simp only [LightRcu.walkStep, pc, Option.some.injEq] at stepped
      rw [pc] at towards
      have linked := intact n (by simp [pc, WalkPc.loads])
      obtain ⟨ahead, behind⟩ := towards.resolve_left (by simp [linked])
      obtain ⟨q, found, reached⟩ := ok.next_ahead linked ahead
      rw [← stepped, found]
      exact walkReaches_arrive reached behind
  | testNext n nPrev =>
      simp only [LightRcu.walkStep, pc, Option.some.injEq] at stepped
      rw [pc] at towards
      subst stepped
      refine Or.inr ?_
      unfold WalkTowards
      split_ifs with same
      · exact Or.inr ⟨towards.1, fun p found => Option.some.inj found ▸ towards.1⟩
      · exact towards.2
  | loadBehind nPrev =>
      simp only [LightRcu.walkStep, pc, Option.some.injEq] at stepped
      rw [pc] at towards
      have linked := intact nPrev (by simp [pc, WalkPc.loads])
      obtain ⟨q, found, reached⟩ := ok.next_ahead linked towards
      rw [← stepped, found]
      exact walkReaches_arrive reached fun p same => Option.some.inj same ▸ towards
  | ended => simp [LightRcu.walkStep, pc] at stepped

/-! ## The writer -/

omit [DecidableEq Addr] in
theorem LeavesAhead.of_same (walk : after.walk = state.walk)
    (visited : after.visited = state.visited)
    (startMembers : after.startMembers = state.startMembers)
    (members : after.members = state.members)
    (lost : ∀ a, state.lost a = true → after.lost a = true) : LeavesAhead state after where
  walk := walk
  visited := visited
  startMembers := startMembers
  lost := lost
  stays := fun _ _ member => members ▸ member
  ahead := fun _ _ a ahead => ahead.imp (lost a) fun before => members.symm ▸ before

namespace ListReadingOk

theorem move (ok : ListReadingOk state) {pc : ListWriterPc Addr}
    (same : ({ state with writer := pc } : ListReading Addr).intact = state.intact)
    (writer : ListWriterOk { state with writer := pc }) :
    ListReadingOk { state with writer := pc } ∧ LeavesAhead state { state with writer := pc } :=
  ⟨⟨same.symm ▸ ok.chain, ok.used, ok.usedStart, writer⟩,
    .of_same rfl rfl rfl rfl fun _ lost => lost⟩

theorem insertHead (ok : ListReadingOk state) {e : Addr} (pc : state.writer = .insertHead e) :
    ListReadingOk { state with head := some e, members := e :: state.members, writer := .idle } ∧
      LeavesAhead state
        { state with head := some e, members := e :: state.members, writer := .idle } := by
  have writer := ok.writer
  have chain := ok.chain
  rw [ListWriterOk, pc] at writer
  rw [ListReading.intact, pc] at chain
  obtain ⟨⟨_, neverMember, used⟩, linked⟩ := writer
  constructor
  · refine ⟨⟨rfl, ?_⟩, ?_, ok.usedStart, trivial⟩
    · change Chain state.next (state.next e) state.members
      exact linked.symm ▸ chain
    · intro a member
      rcases List.mem_cons.mp member with rfl | earlier
      · exact used
      · exact ok.used a earlier
  · refine ⟨rfl, rfl, rfl, fun _ lost => lost, ?_, ?_⟩
    · intro x started member
      apply (List.mem_cons.mp member).resolve_left
      rintro rfl
      exact neverMember started
    · exact fun x _ a ahead => ahead.imp_right fun before => before.cons e

/-- `t->next = NULL` cuts off what is behind `t`, and the list is as it was
otherwise. -/
theorem unlinkClear (ok : ListReadingOk state) {e tn : Option Addr} {t : Addr}
    (pc : state.writer = .unlinkClear e t tn)
    (stepped : listWriterStep state = some after) :
    ListReadingOk after ∧ LeavesAhead state after := by
  have writer := ok.writer
  have chain := ok.chain
  rw [ListWriterOk, pc] at writer
  rw [ListReading.intact, pc] at chain
  obtain ⟨unlinks, rfl⟩ := writer
  simp only [listWriterStep, pc, Option.some.injEq] at stepped
  subst stepped
  constructor
  · refine ⟨?_, ok.used, ok.usedStart, unlinks, Function.update_self _ _ _, ?_⟩
    · simpa [ListReading.intact] using chain
    · by_cases last : state.next t = none
      · exact Or.inl last
      · exact Or.inr (by simp [last])
  · refine .of_same rfl rfl rfl rfl fun a lost => ?_
    by_cases last : state.next t = none
    · simpa [last] using lost
    · rcases eq_or_ne a t with rfl | other
      · simp [last]
      · simpa [last, other] using lost

/-- `lh->head = tn` or `e->next = t2` takes the element out of the list. -/
theorem unlinkStore (ok : ListReadingOk state) {e tn : Option Addr} {t : Addr}
    (pc : state.writer = .unlinkStore e t tn)
    (stepped : listWriterStep state = some after) :
    ListReadingOk after ∧ LeavesAhead state after := by
  have writer := ok.writer
  have chain := ok.chain
  have distinct := chain.nodup
  rw [ListWriterOk, pc] at writer
  obtain ⟨⟨kept, rest, members, rfl⟩, cleared, last⟩ := writer
  have intact : state.intact = Function.update state.next t tn := by
    rw [ListReading.intact, pc]
  have pointed : state.intact t = tn := by
    rw [intact, Function.update_self]
  have restored : Function.update state.intact t none = state.next := by
    rw [intact, Function.update_idem, ← cleared, Function.update_eq_self]
  have erased : state.members.erase t = kept ++ rest := by
    rw [members] at chain ⊢
    have absent : t ∉ kept := fun member => chain.absent (List.mem_append_left rest member)
    rw [List.erase_append_right _ absent, List.erase_cons_head]
  have used : ∀ a ∈ state.members.erase t, state.used a = true :=
    fun a member => ok.used a (List.mem_of_mem_erase member)
  have stays : ∀ x ∈ state.members.erase t, ∀ a, state.Ahead x a →
      state.lost a = true ∨ [a, x].Sublist (state.members.erase t) := by
    rintro x member a (lost | before)
    · exact Or.inl lost
    rcases eq_or_ne a t with rfl | other
    · -- what the unlink has cleared, it has cut off from `x`
      obtain ⟨q, found, _⟩ := chain.next_before before
      exact Or.inl (last.resolve_left (by simp [← pointed, found]))
    · have apart : x ≠ t := (distinct.mem_erase_iff.mp member).1
      have kept := before.erase t
      rw [List.erase_of_not_mem (by simp [other.symm, apart.symm])] at kept
      exact Or.inr kept
  rcases List.eq_nil_or_concat' kept with rfl | ⟨front, previous, rfl⟩
  · simp only [listWriterStep, pc, List.getLast?_nil, Option.some.injEq] at stepped
    subst stepped
    rw [members] at chain
    have rest' := chain.tail (fun member => chain.absent (by simpa using member)) none
    rw [restored, pointed] at rest'
    exact ⟨⟨erased.symm ▸ rest', used, ok.usedStart, trivial⟩,
      rfl, rfl, rfl, fun _ lost => lost, fun _ _ => List.mem_of_mem_erase, stays⟩
  · simp only [listWriterStep, pc, List.getLast?_concat, Option.some.injEq] at stepped
    subst stepped
    have split : state.members = front ++ previous :: t :: rest := by simpa using members
    have removed : Chain (Function.update (Function.update state.intact t none) previous
        (state.intact t)) state.head (front ++ previous :: rest) :=
      Chain.remove (split ▸ chain) (split ▸ distinct)
    rw [restored, pointed] at removed
    refine ⟨⟨?_, used, ok.usedStart, trivial⟩,
      rfl, rfl, rfl, fun _ lost => lost, fun _ _ => List.mem_of_mem_erase, stays⟩
    have same : state.members.erase t = front ++ previous :: rest := by simpa using erased
    exact same.symm ▸ removed

theorem writerStep (ok : ListReadingOk state) (stepped : listWriterStep state = some after) :
    ListReadingOk after ∧ LeavesAhead state after := by
  have writer := ok.writer
  unfold ListWriterOk at writer
  cases pc : state.writer with
  | idle => simp [listWriterStep, pc] at stepped
  | insertTest e =>
      simp only [listWriterStep, pc, Option.some.injEq] at stepped
      rw [pc] at writer
      subst stepped
      by_cases empty : state.head = none
      · rw [if_pos empty]
        exact ok.move (by simp [ListReading.intact, pc]) ⟨writer, empty.symm⟩
      · rw [if_neg empty]
        exact ok.move (by simp [ListReading.intact, pc]) writer
  | insertLoad e =>
      simp only [listWriterStep, pc, Option.some.injEq] at stepped
      rw [pc] at writer
      exact stepped ▸ ok.move (by simp [ListReading.intact, pc]) ⟨writer, rfl⟩
  | insertNext e t =>
      simp only [listWriterStep, pc, Option.some.injEq] at stepped
      rw [pc] at writer
      obtain ⟨fresh, rfl⟩ := writer
      subst stepped
      have chain := ok.chain
      rw [ListReading.intact, pc] at chain
      exact ⟨⟨chain.update fresh.1 _, ok.used, ok.usedStart, fresh, Function.update_self _ _ _⟩,
        .of_same rfl rfl rfl rfl fun _ lost => lost⟩
  | insertHead e =>
      simp only [listWriterStep, pc, Option.some.injEq] at stepped
      exact stepped ▸ ok.insertHead pc
  | unlinkLoad e =>
      simp only [listWriterStep, pc, Option.map_eq_some_iff] at stepped
      rw [pc] at writer
      obtain ⟨t, found, rfl⟩ := stepped
      obtain ⟨n, kept, rest, members, rfl⟩ := writer
      -- what the writer loads is the element behind those that it keeps
      refine ok.move (by simp [ListReading.intact, pc]) ⟨kept, rest, ?_, rfl⟩
      have chain := ok.chain
      rw [ListReading.intact, pc, members] at chain
      have first := chain.behind
      rw [ListReading.behind_eq] at found
      obtain rfl : n = t := Option.some.inj (first.symm.trans found)
      exact members
  | unlinkNext e t =>
      simp only [listWriterStep, pc, Option.some.injEq] at stepped
      rw [pc] at writer
      exact stepped ▸ ok.move (by simp [ListReading.intact, pc]) ⟨writer, rfl⟩
  | unlinkClear e t tn => exact ok.unlinkClear pc stepped
  | unlinkStore e t tn => exact ok.unlinkStore pc stepped

theorem start (ok : ListReadingOk state) {action : ListReadingAction Addr}
    (stepped : listReadingStep state action = some after) (notBegin : action ≠ .begin)
    (notReader : action ≠ .reader) : ListReadingOk after ∧ LeavesAhead state after := by
  have chain := ok.chain
  cases action with
  | begin => exact absurd rfl notBegin
  | reader => exact absurd rfl notReader
  | insert e =>
      simp only [listReadingStep, Option.ite_none_right_eq_some, Option.some.injEq] at stepped
      obtain ⟨⟨idle, unused⟩, rfl⟩ := stepped
      rw [ListReading.intact, idle] at chain
      have used : ∀ a, state.used a = true → Function.update state.used e true a = true := by
        intro a old
        rcases eq_or_ne a e with rfl | other
        · exact Function.update_self _ _ _
        · rwa [Function.update_of_ne other]
      refine ⟨⟨chain, fun a member => used a (ok.used a member),
        fun a member => used a (ok.usedStart a member), ?_, ?_, Function.update_self _ _ _⟩,
        .of_same rfl rfl rfl rfl fun _ lost => lost⟩
      · exact fun member => by simp [ok.used e member] at unused
      · exact fun member => by simp [ok.usedStart e member] at unused
  | unlink e =>
      simp only [listReadingStep, Option.ite_none_right_eq_some, Option.some.injEq] at stepped
      obtain ⟨⟨idle, member, more⟩, rfl⟩ := stepped
      refine ok.move (by simp [ListReading.intact, idle]) ?_
      rw [ListReading.intact, idle] at chain
      -- the members up to `e` are kept
      obtain ⟨kept, rest, members, rfl⟩ : ∃ kept rest,
          state.members = kept ++ rest ∧ e = kept.getLast? := by
        cases e with
        | none => exact ⟨[], state.members, rfl, rfl⟩
        | some e =>
            obtain ⟨front, rest, split⟩ := List.append_of_mem (member e rfl)
            exact ⟨front ++ [e], rest, by simp [split], by simp⟩
      have first := (members ▸ chain).behind
      rw [ListReading.behind_eq, first] at more
      cases rest with
      | nil => exact absurd rfl more
      | cons t rest => exact ⟨t, kept, rest, members, rfl⟩
  | writer => exact ok.writerStep stepped

theorem read (ok : ListReadingOk state) (stepped : walkStep state = some after) :
    ListReadingOk after ∧ after.members = state.members ∧
      after.startMembers = state.startMembers := by
  have walked : ∀ pc visited, ListReadingOk { state with walk := pc, visited := visited } :=
    fun _ _ => ⟨ok.chain, ok.used, ok.usedStart, ok.writer⟩
  have arrives : ∀ n nPrev, ListReadingOk (state.arrive n nPrev) ∧
      (state.arrive n nPrev).members = state.members ∧
        (state.arrive n nPrev).startMembers = state.startMembers := by
    intro n nPrev
    cases n with
    | none => exact ⟨walked _ _, rfl, rfl⟩
    | some n => exact ⟨walked _ _, rfl, rfl⟩
  cases pc : state.walk <;> simp only [walkStep, pc, Option.some.injEq, reduceCtorEq] at stepped
  all_goals subst stepped
  all_goals first | exact ⟨walked _ _, rfl, rfl⟩ | exact arrives _ _

theorem begins (ok : ListReadingOk state) :
    ListReadingOk { state with walk := .loadHead, startMembers := state.members } := by
  refine ⟨ok.chain, ok.used, ok.used, ?_⟩
  have writer := ok.writer
  unfold ListWriterOk at writer ⊢
  have fresh : ∀ e, state.Fresh e → ListReading.Fresh
      { state with walk := .loadHead, startMembers := state.members } e :=
    fun e fresh => ⟨fresh.1, fresh.1, fresh.2.2⟩
  cases pc : state.writer with
  | insertTest e | insertLoad e => exact fresh e (by simpa [pc] using writer)
  | insertNext e t | insertHead e =>
      rw [pc] at writer
      exact ⟨fresh e writer.1, writer.2⟩
  | idle => trivial
  | unlinkLoad e | unlinkNext e t | unlinkClear e t tn | unlinkStore e t tn =>
      rw [pc] at writer
      exact writer

end ListReadingOk

/-! ## Every interleaving -/

/-- The list is in order, and every element that stays will have been visited. -/
def WalkInvariant (state : ListReading Addr) : Prop :=
  ListReadingOk state ∧
    ∀ x ∈ state.startMembers, x ∈ state.members → WalkReaches state x

theorem WalkInvariant.step (holds : WalkInvariant state) {action : ListReadingAction Addr}
    (intact : LoadsIntact state action)
    (stepped : listReadingStep state action = some after) : WalkInvariant after := by
  obtain ⟨ok, reaches⟩ := holds
  by_cases begin : action = .begin
  · subst begin
    simp only [listReadingStep, Option.ite_none_right_eq_some, Option.some.injEq] at stepped
    obtain ⟨_, rfl⟩ := stepped
    exact ⟨ok.begins, fun x _ _ => Or.inr trivial⟩
  by_cases reader : action = .reader
  · subst reader
    obtain ⟨after_ok, members, startMembers⟩ := ok.read stepped
    refine ⟨after_ok, fun x started member => ?_⟩
    rw [startMembers] at started
    rw [members] at member
    exact (reaches x started member).walkStep ok member (intact rfl) stepped
  · obtain ⟨after_ok, frame⟩ := ok.start stepped begin reader
    refine ⟨after_ok, fun x started member => ?_⟩
    rw [frame.startMembers] at started
    exact (reaches x started (frame.stays x started member)).frame frame member

/-- As long as the reader does not load the `next` field of an element after an
unlink has cleared it in front of another one, its walk visits every element
that is on the list from before it began until it ended. -/
theorem walk_visits_members {next : Addr → Option Addr} {head : Option Addr}
    {members : List Addr} {used : Addr → Bool} {actions : List (ListReadingAction Addr)}
    (chain : Chain next head members) (inUse : ∀ a ∈ members, used a = true)
    (intact : Meets listReadingStep LoadsIntact (listReadingInit next head members used) actions)
    (ran : run listReadingStep (listReadingInit next head members used) actions = some state)
    (ended : state.walk = .ended) :
    ∀ x ∈ state.startMembers, x ∈ state.members → x ∈ state.visited := by
  have start : WalkInvariant (listReadingInit next head members used) :=
    ⟨⟨chain, inUse, by simp [listReadingInit], trivial⟩, by simp [listReadingInit]⟩
  have final : WalkInvariant state := by
    apply run_preserves_of_meets WalkInvariant _ intact start ran
    exact fun state action after met holds stepped => holds.step met stepped
  intro x started member
  apply (final.2 x started member).resolve_right
  rw [WalkTowards, ended]
  exact id

/-- The elements 1, 2 and 3, in this order. -/
def threeElements : ListReading Nat :=
  listReadingInit (fun | 1 => some 2 | 2 => some 3 | _ => none) (some 1) [1, 2, 3]
    fun a => decide (a ≤ 3)

/-- The reader is at the first element while the second one is unlinked and a
fourth one is inserted. -/
def unlinkAhead : List (ListReadingAction Nat) :=
  [.begin, .reader, .unlink (some 1), .writer, .writer, .writer, .writer, .insert 4, .reader,
    .reader, .writer, .writer, .writer, .writer, .reader, .reader, .reader]

theorem walk_visits_members_unlinkAhead :
    ∃ state, run listReadingStep threeElements unlinkAhead = some state ∧
      state.startMembers = [1, 2, 3] ∧ state.members = [4, 1, 3] ∧
      ∀ x ∈ state.startMembers, x ∈ state.members → x ∈ state.visited := by
  obtain ⟨state, ran, ended, started, stayed⟩ : ∃ state,
      run listReadingStep threeElements unlinkAhead = some state ∧ state.walk = .ended ∧
        state.startMembers = [1, 2, 3] ∧ state.members = [4, 1, 3] :=
    ⟨_, rfl, rfl, rfl, rfl⟩
  refine ⟨state, ran, started, stayed, walk_visits_members ?_ ?_ ?_ ran ended⟩
  · exact ⟨rfl, rfl, rfl, rfl⟩
  · decide
  · iterate 17
      refine Meets.cons (by rintro ⟨⟩ a loads <;> cases loads <;> rfl) rfl ?_
    trivial

/-- The reader is about to load the `next` field of the first element when that
element is unlinked. -/
def unlinkUnderReader : List (ListReadingAction Nat) :=
  [.begin, .reader, .reader, .reader, .unlink none, .writer, .writer, .writer, .writer, .reader]

/-- The walk ends there, and the elements 2 and 3, which no operation unlinks,
are not visited. -/
theorem walk_misses_tail :
    ∃ state, run listReadingStep threeElements unlinkUnderReader = some state ∧
      state.walk = .ended ∧ state.startMembers = [1, 2, 3] ∧ state.members = [2, 3] ∧
      Chain state.next state.head state.members ∧ state.visited = [1] :=
  ⟨_, rfl, rfl, rfl, rfl, ⟨rfl, rfl, rfl⟩, rfl⟩

end LightRcu
