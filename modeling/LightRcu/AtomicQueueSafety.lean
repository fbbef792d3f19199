import LightRcu.AtomicQueue

/-!
# No node is lost or queued twice

Behind every head and every local variable that holds a chain there is a list
of nodes, and no node is in two of them.  An inserter that has linked its node
to a head which was taken, freed and pushed again in the meantime does no harm:
its compare-and-swap only succeeds when the node is linked to the head that is
there.
-/

namespace LightRcu

open Execution

variable {Thread Addr : Type*}

/-! ## The invariant -/

/-- The nodes of the free list, those that a splice has taken, those of the
private list, and those that a removal has cut off from it. -/
structure QueueLists (Addr : Type*) where
  free : List Addr
  taken : List Addr
  linked : List Addr
  cut : List Addr

def QueueLists.all (lists : QueueLists Addr) : List Addr :=
  lists.free ++ lists.taken ++ lists.linked ++ lists.cut

/-- What an inserter relies on: its node is its own, and before the
compare-and-swap it is linked to the expected head. -/
def InserterOk (next : Addr → Option Addr) (place : Addr → NodePlace Thread) (thread : Thread) :
    InsertPc Addr → Prop
  | .idle => True
  | .loadHead e | .storeNext e _ => place e = .inserting thread
  | .cmpxchg e t => place e = .inserting thread ∧ next e = t

/-- What the consumer knows about its list. -/
def ConsumerOk (next : Addr → Option Addr) (place : Addr → NodePlace Thread)
    (linked : List Addr) : ConsumerPc Addr → Prop
  | .walk e => ∃ kept rest, linked = kept ++ rest ∧ e = kept.getLast?
  | .testFree | .loadFree | .cmpxchg _ | .testPrivate _ => True
  | .storeHead _ => linked = []
  | .getTail _ => linked ≠ []
  | .getTailLoop e ePrev _ =>
      ∃ kept rest, linked = kept ++ rest ∧ linked ≠ [] ∧ Chain next e rest ∧
        ePrev = kept.getLast?
  | .storeTail ePrev _ => linked ≠ [] ∧ ePrev = linked.getLast?
  | .unlinkLoad e => ∃ kept n rest, linked = kept ++ n :: rest ∧ e = kept.getLast?
  | .unlinkNext e t => ∃ kept rest, linked = kept ++ t :: rest ∧ e = kept.getLast?
  | .unlinkClear e t tn =>
      ∃ kept rest, linked = kept ++ t :: rest ∧ e = kept.getLast? ∧ Chain next tn rest
  | .unlinkStore e t _ => ∃ kept, linked = kept ++ [t] ∧ e = kept.getLast?
  | .free e t =>
      place t = .removed ∧ ∃ kept rest, linked = kept ++ rest ∧ e = kept.getLast?

/-- The heads and the local variables link up four lists without a common
node, which together hold the nodes whose insertion has completed. -/
structure AtomicQueueOk (lists : QueueLists Addr) (state : AtomicQueue Thread Addr) : Prop where
  freeChain : Chain state.next state.freeHead lists.free
  takenChain : Chain state.next state.consumer.taken lists.taken
  linkedChain : Chain state.next state.privateHead lists.linked
  cutChain : Chain state.next state.consumer.cut lists.cut
  distinct : lists.all.Nodup
  inserted : ∀ addr, addr ∈ lists.all ↔ state.place addr = .inserted
  inserters : ∀ thread, InserterOk state.next state.place thread (state.inserter thread)
  consumer : ConsumerOk state.next state.place lists.linked state.consumer

/-! ## Frames -/

variable {next next' : Addr → Option Addr} {place place' : Addr → NodePlace Thread}
  {lists : QueueLists Addr} {state : AtomicQueue Thread Addr}

theorem InserterOk.frame {thread : Thread} {pc : InsertPc Addr}
    (ok : InserterOk next place thread pc)
    (same : ∀ e, place e = .inserting thread → next' e = next e ∧ place' e = place e) :
    InserterOk next' place' thread pc := by
  cases pc with
  | idle => trivial
  | loadHead e => exact (same e ok).2.trans ok
  | storeNext e t => exact (same e ok).2.trans ok
  | cmpxchg e t => exact ⟨(same e ok.1).2.trans ok.1, (same e ok.1).1.trans ok.2⟩

theorem ConsumerOk.frame {linked : List Addr} {pc : ConsumerPc Addr}
    (ok : ConsumerOk next place linked pc) (same : ∀ addr ∈ linked, next' addr = next addr)
    (removed : ∀ addr, place addr = .removed → place' addr = .removed) :
    ConsumerOk next' place' linked pc := by
  cases pc with
  | getTailLoop e ePrev t =>
      obtain ⟨kept, rest, rfl, nonempty, chain, previous⟩ := ok
      refine ⟨kept, rest, rfl, nonempty, chain.congr fun addr member => ?_, previous⟩
      exact same addr (List.mem_append_right kept member)
  | unlinkClear e t tn =>
      obtain ⟨kept, rest, rfl, previous, chain⟩ := ok
      refine ⟨kept, rest, rfl, previous, chain.congr fun addr member => ?_⟩
      exact same addr (List.mem_append_right kept (List.mem_cons_of_mem t member))
  | free e t => exact ⟨removed t ok.1, ok.2⟩
  | walk | testFree | loadFree | cmpxchg | testPrivate | storeHead | getTail | storeTail
  | unlinkLoad | unlinkNext | unlinkStore => exact ok

theorem behind_eq {kept rest : List Addr}
    (chain : Chain state.next state.privateHead (kept ++ rest)) :
    state.behind kept.getLast? = rest.head? := by
  have found := chain.behind
  cases last : kept.getLast? <;> simpa [AtomicQueue.behind, last] using found

namespace AtomicQueueOk

theorem init : AtomicQueueOk ⟨[], [], [], []⟩ (atomicQueueInit Thread Addr) where
  freeChain := rfl
  takenChain := rfl
  linkedChain := rfl
  cutChain := rfl
  distinct := List.nodup_nil
  inserted addr := by simp [QueueLists.all, atomicQueueInit]
  inserters thread := trivial
  consumer := ⟨[], [], rfl, rfl⟩

theorem mem_free (ok : AtomicQueueOk lists state) {addr : Addr} (member : addr ∈ lists.free) :
    state.place addr = .inserted :=
  (ok.inserted addr).mp (by simp [QueueLists.all, member])

theorem mem_taken (ok : AtomicQueueOk lists state) {addr : Addr} (member : addr ∈ lists.taken) :
    state.place addr = .inserted :=
  (ok.inserted addr).mp (by simp [QueueLists.all, member])

theorem mem_linked (ok : AtomicQueueOk lists state) {addr : Addr}
    (member : addr ∈ lists.linked) : state.place addr = .inserted :=
  (ok.inserted addr).mp (by simp [QueueLists.all, member])

theorem mem_cut (ok : AtomicQueueOk lists state) {addr : Addr} (member : addr ∈ lists.cut) :
    state.place addr = .inserted :=
  (ok.inserted addr).mp (by simp [QueueLists.all, member])

theorem move (ok : AtomicQueueOk lists state) {pc : ConsumerPc Addr}
    (taken : pc.taken = state.consumer.taken) (cut : pc.cut = state.consumer.cut)
    (consumer : ConsumerOk state.next state.place lists.linked pc) :
    AtomicQueueOk lists { state with consumer := pc } :=
  { ok with
    takenChain := taken ▸ ok.takenChain
    cutChain := cut ▸ ok.cutChain
    consumer := consumer }

theorem moveFrom (ok : AtomicQueueOk lists state) {before pc : ConsumerPc Addr}
    (atPc : state.consumer = before) (taken : pc.taken = before.taken)
    (cut : pc.cut = before.cut) (consumer : ConsumerOk state.next state.place lists.linked pc) :
    AtomicQueueOk lists { state with consumer := pc } := by
  apply ok.move
  · rw [taken, atPc]
  · rw [cut, atPc]
  · exact consumer

theorem setInserter [DecidableEq Thread] (ok : AtomicQueueOk lists state) {thread : Thread}
    {pc : InsertPc Addr} (inserter : InserterOk state.next state.place thread pc) :
    AtomicQueueOk lists (state.setInserter thread pc) :=
  { ok with
    inserters := by
      intro other
      rcases eq_or_ne other thread with rfl | apart
      · simpa [AtomicQueue.setInserter] using inserter
      · simpa [AtomicQueue.setInserter, apart] using ok.inserters other }

/-- Stores to memory that is on no list leave all four chains alone. -/
theorem chains (ok : AtomicQueueOk lists state)
    (same : ∀ addr, state.place addr = .inserted → next' addr = state.next addr) :
    Chain next' state.freeHead lists.free ∧ Chain next' state.consumer.taken lists.taken ∧
      Chain next' state.privateHead lists.linked ∧ Chain next' state.consumer.cut lists.cut :=
  ⟨ok.freeChain.congr fun addr member => same addr (ok.mem_free member),
    ok.takenChain.congr fun addr member => same addr (ok.mem_taken member),
    ok.linkedChain.congr fun addr member => same addr (ok.mem_linked member),
    ok.cutChain.congr fun addr member => same addr (ok.mem_cut member)⟩

/-- Stores to nodes on the lists leave the inserters alone. -/
theorem inserters_frame (ok : AtomicQueueOk lists state)
    (same : ∀ e thread, state.place e = .inserting thread →
      next' e = state.next e ∧ place' e = state.place e) (thread : Thread) :
    InserterOk next' place' thread (state.inserter thread) :=
  (ok.inserters thread).frame fun e held => same e thread held

/-! ## The inserters -/

variable [DecidableEq Thread] [DecidableEq Addr]

/-- A thread stores to a node of its own, which no other thread has or sees. -/
theorem ownWrite (ok : AtomicQueueOk lists state) {thread : Thread} {e : Addr}
    (target : Option Addr) (pc : InsertPc Addr)
    (owned : state.place e = .unused ∨ state.place e = .inserting thread)
    (inserter : InserterOk (Function.update state.next e target)
      (Function.update state.place e (.inserting thread)) thread pc) :
    AtomicQueueOk lists ({ state with
      next := Function.update state.next e target
      place := Function.update state.place e (.inserting thread) }.setInserter thread pc) := by
  have notInserted : state.place e ≠ .inserted := by
    rcases owned with unused | held
    · simp [unused]
    · simp [held]
  have same : ∀ addr, state.place addr = .inserted →
      Function.update state.next e target addr = state.next addr := by
    intro addr inserted
    apply Function.update_of_ne
    rintro rfl
    exact notInserted inserted
  obtain ⟨freeChain, takenChain, linkedChain, cutChain⟩ := ok.chains same
  constructor
  · exact freeChain
  · exact takenChain
  · exact linkedChain
  · exact cutChain
  · exact ok.distinct
  · intro addr
    rw [ok.inserted addr]
    rcases eq_or_ne addr e with rfl | apart
    · simp [AtomicQueue.setInserter, notInserted]
    · simp [AtomicQueue.setInserter, apart]
  · intro other
    rcases eq_or_ne other thread with rfl | apart
    · simpa [AtomicQueue.setInserter] using inserter
    · have kept : InserterOk (Function.update state.next e target)
          (Function.update state.place e (.inserting thread)) other (state.inserter other) := by
        refine (ok.inserters other).frame fun addr held => ?_
        have differ : addr ≠ e := by
          rintro rfl
          rcases owned with unused | mine
          · simp [unused] at held
          · exact apart (by simpa [mine] using held.symm)
        simp [differ]
      simpa [AtomicQueue.setInserter, apart] using kept
  · apply ok.consumer.frame
    · exact fun addr member => same addr (ok.mem_linked member)
    · intro addr removed
      refine (Function.update_of_ne ?_ _ _).trans removed
      rintro rfl
      rcases owned with unused | held
      · simp [unused] at removed
      · simp [held] at removed

theorem insertAtomicStep_ok (ok : AtomicQueueOk lists state) {thread : Thread}
    {after : AtomicQueue Thread Addr} (stepped : insertAtomicStep state thread = some after) :
    ∃ lists, AtomicQueueOk lists after := by
  have inserter := ok.inserters thread
  unfold insertAtomicStep at stepped
  cases pc : state.inserter thread with
  | idle => simp [pc] at stepped
  | loadHead e =>
      simp only [pc, Option.some.injEq] at stepped inserter
      exact ⟨lists, stepped ▸ ok.setInserter inserter⟩
  | storeNext e t =>
      simp only [pc, Option.some.injEq] at stepped inserter
      subst stepped
      change state.place e = .inserting thread at inserter
      have same : Function.update state.place e (.inserting thread) = state.place :=
        inserter ▸ Function.update_eq_self e state.place
      have written := ok.ownWrite t (.cmpxchg e t) (Or.inr inserter) ⟨by simp, by simp⟩
      rw [same] at written
      exact ⟨lists, written⟩
  | cmpxchg e t =>
      simp only [pc] at stepped inserter
      obtain ⟨held, linked⟩ := inserter
      split_ifs at stepped with current
      · -- the node is linked to the head that is there, so it goes in front
        obtain rfl := Option.some.inj stepped
        have outside : e ∉ lists.all := by
          rw [ok.inserted e, held]
          simp
        refine ⟨{ lists with free := e :: lists.free }, ?_, ok.takenChain, ok.linkedChain,
          ok.cutChain, List.nodup_cons.mpr ⟨outside, ok.distinct⟩, fun addr => ?_,
          fun other => ?_, ?_⟩
        · refine ⟨rfl, ?_⟩
          change Chain state.next (state.next e) lists.free
          rw [linked, ← current]
          exact ok.freeChain
        · change addr ∈ e :: lists.all ↔ _
          rw [List.mem_cons, ok.inserted addr]
          rcases eq_or_ne addr e with rfl | apart
          · simp [AtomicQueue.setInserter]
          · simp [AtomicQueue.setInserter, apart]
        · rcases eq_or_ne other thread with rfl | apart
          · simp [AtomicQueue.setInserter, InserterOk]
          · have kept : InserterOk state.next (Function.update state.place e .inserted) other
                (state.inserter other) := by
              refine (ok.inserters other).frame fun addr holds => ?_
              have differ : addr ≠ e := by
                rintro rfl
                exact apart (by simpa [held] using holds.symm)
              simp [differ]
            simpa [AtomicQueue.setInserter, apart] using kept
        · apply ok.consumer.frame (fun _ _ => rfl)
          intro addr removed
          refine (Function.update_of_ne ?_ _ _).trans removed
          rintro rfl
          simp [held] at removed
      · obtain rfl := Option.some.inj stepped
        exact ⟨lists, ok.setInserter held⟩

/-! ## The consumer -/

omit [DecidableEq Thread] [DecidableEq Addr] in
theorem linked_apart (ok : AtomicQueueOk lists state) {addr : Addr}
    (member : addr ∈ lists.linked) :
    addr ∉ lists.free ∧ addr ∉ lists.taken ∧ addr ∉ lists.cut := by
  have distinct := ok.distinct
  simp only [QueueLists.all, List.nodup_append, List.mem_append] at distinct
  obtain ⟨⟨_, _, before⟩, _, behind⟩ := distinct
  exact ⟨fun inFree => before addr (Or.inl inFree) addr member rfl,
    fun inTaken => before addr (Or.inr inTaken) addr member rfl,
    fun inCut => behind addr (Or.inr member) addr inCut rfl⟩

omit [DecidableEq Thread] [DecidableEq Addr] in
theorem not_inserting (ok : AtomicQueueOk lists state) {addr : Addr}
    (member : addr ∈ lists.all) (thread : Thread) : state.place addr ≠ .inserting thread := by
  rw [(ok.inserted addr).mp member]
  simp

omit [DecidableEq Thread] in
/-- A store to a node of the private list does not concern the inserters. -/
theorem inserters_store (ok : AtomicQueueOk lists state) {addr : Addr} (target : Option Addr)
    (member : addr ∈ lists.linked) (thread : Thread) :
    InserterOk (Function.update state.next addr target) state.place thread
      (state.inserter thread) := by
  refine ok.inserters_frame (fun e thread held => ⟨Function.update_of_ne ?_ _ _, rfl⟩) thread
  rintro rfl
  exact ok.not_inserting (by simp [QueueLists.all, member]) thread held

omit [DecidableEq Thread] in
theorem storeTail (ok : AtomicQueueOk lists state) {last : Addr} {t : Option Addr}
    (pc : state.consumer = .storeTail (some last) t) :
    AtomicQueueOk ⟨lists.free, [], lists.linked ++ lists.taken, []⟩
      { state with
        next := Function.update state.next last t
        consumer := .walk none } := by
  have consumer := ok.consumer
  have takenChain := ok.takenChain
  have cutChain := ok.cutChain
  rw [pc] at consumer takenChain cutChain
  obtain ⟨nonempty, isLast⟩ := consumer
  obtain ⟨before, linked⟩ := List.getLast?_eq_some_iff.mp isLast.symm
  have noCut : lists.cut = [] := chain_none.mp cutChain
  have inside : last ∈ lists.linked := linked ▸ by simp
  obtain ⟨notFree, notTaken, _⟩ := ok.linked_apart inside
  have same : (QueueLists.mk lists.free [] (lists.linked ++ lists.taken) []).all.Perm
      lists.all := by
    simp only [QueueLists.all, List.append_nil, noCut, List.append_assoc]
    exact List.perm_append_comm.append_left _
  constructor
  · exact ok.freeChain.update notFree t
  · exact chain_none.mpr rfl
  · have linkedChain := ok.linkedChain
    have fresh := (List.nodup_append.mp (linked ▸ linkedChain.nodup)).2.2
    change Chain _ _ (lists.linked ++ lists.taken)
    rw [linked] at linkedChain ⊢
    refine linkedChain.append takenChain (fun member => ?_) notTaken
    exact fresh last member last (List.mem_singleton_self last) rfl
  · exact chain_none.mpr rfl
  · exact same.nodup_iff.mpr ok.distinct
  · intro addr
    rw [same.mem_iff]
    exact ok.inserted addr
  · exact ok.inserters_store t inside
  · exact ⟨[], lists.linked ++ lists.taken, rfl, rfl⟩

omit [DecidableEq Thread] in
/-- The first store of a removal cuts off what is behind its node. -/
theorem unlinkClear (ok : AtomicQueueOk lists state) {e tn : Option Addr} {t : Addr}
    (pc : state.consumer = .unlinkClear e t tn) :
    ∃ kept rest, AtomicQueueOk ⟨lists.free, [], kept ++ [t], rest⟩
      { state with
        next := Function.update state.next t none
        consumer := .unlinkStore e t tn } := by
  have consumer := ok.consumer
  have takenChain := ok.takenChain
  have cutChain := ok.cutChain
  rw [pc] at consumer takenChain cutChain
  obtain ⟨kept, rest, linked, previous, restChain⟩ := consumer
  have noTaken : lists.taken = [] := chain_none.mp takenChain
  have noCut : lists.cut = [] := chain_none.mp cutChain
  have inside : t ∈ lists.linked := linked ▸ by simp
  obtain ⟨notFree, _, _⟩ := ok.linked_apart inside
  have linkedChain := ok.linkedChain
  rw [linked] at linkedChain
  have absent := linkedChain.absent
  have same : (QueueLists.mk lists.free [] (kept ++ [t]) rest).all = lists.all := by
    simp [QueueLists.all, noTaken, noCut, linked]
  refine ⟨kept, rest, ?_, chain_none.mpr rfl, ?_, ?_, same ▸ ok.distinct, fun addr => ?_,
    ok.inserters_store none inside, kept, rfl, previous⟩
  · exact ok.freeChain.update notFree none
  · obtain ⟨middle, visited, reached⟩ := segment_append.mp linkedChain
    have fresh : t ∉ kept := fun member => absent (List.mem_append_left rest member)
    have front : Segment state.next state.privateHead (kept ++ [t]) (state.next t) :=
      segment_append.mpr ⟨middle, visited, reached.1, rfl⟩
    exact front.store fresh
  · exact restChain.update (fun member => absent (List.mem_append_right kept member)) none
  · rw [same]
    exact ok.inserted addr

omit [DecidableEq Thread] in
/-- The second store of a removal links what was cut off again, without the
node. -/
theorem unlinkStore (ok : AtomicQueueOk lists state) {e tn : Option Addr} {t : Addr}
    {after : AtomicQueue Thread Addr} (pc : state.consumer = .unlinkStore e t tn)
    (stepped : consumerStep state = some after) : ∃ lists, AtomicQueueOk lists after := by
  have consumer := ok.consumer
  have takenChain := ok.takenChain
  have cutChain := ok.cutChain
  rw [pc] at consumer takenChain cutChain
  obtain ⟨kept, linked, rfl⟩ := consumer
  have noTaken : lists.taken = [] := chain_none.mp takenChain
  have linkedChain := ok.linkedChain
  rw [linked] at linkedChain
  -- the lists lose exactly the node
  let left : QueueLists Addr := ⟨lists.free, [], kept ++ lists.cut, []⟩
  have same : lists.all.Perm (t :: left.all) := by
    simp only [QueueLists.all, left, noTaken, linked, List.append_nil, List.append_assoc,
      List.singleton_append]
    rw [← List.append_assoc, ← List.append_assoc]
    exact List.perm_middle
  obtain ⟨outside, distinct⟩ := List.nodup_cons.mp (same.nodup_iff.mp ok.distinct)
  have inserted : ∀ addr, addr ∈ left.all ↔
      Function.update state.place t .removed addr = .inserted := by
    intro addr
    rcases eq_or_ne addr t with rfl | apart
    · simpa using outside
    · rw [Function.update_of_ne apart, ← ok.inserted addr, same.mem_iff, List.mem_cons]
      simp [apart]
  have listed : state.place t = .inserted :=
    (ok.inserted t).mp (same.mem_iff.mpr List.mem_cons_self)
  have held : ∀ e thread, state.place e = .inserting thread →
      Function.update state.place t .removed e = state.place e := by
    intro e thread holds
    apply Function.update_of_ne
    rintro rfl
    simp [listed] at holds
  have freeing : ∃ front rest, left.linked = front ++ rest ∧
      kept.getLast? = front.getLast? := ⟨kept, lists.cut, rfl, rfl⟩
  rcases List.eq_nil_or_concat' kept with rfl | ⟨front, previous, rfl⟩
  · simp only [consumerStep, pc, List.getLast?_nil, Option.some.injEq] at stepped
    subst stepped
    refine ⟨left, ok.freeChain, rfl, cutChain, rfl, distinct, inserted, fun thread => ?_,
      Function.update_self _ _ _, freeing⟩
    exact ok.inserters_frame (fun e thread holds => ⟨rfl, held e thread holds⟩) thread
  · simp only [consumerStep, pc, List.getLast?_concat, Option.some.injEq] at stepped
    subst stepped
    have inside : previous ∈ lists.linked := linked ▸ by simp
    obtain ⟨notFree, _, notCut⟩ := ok.linked_apart inside
    have absent : previous ∉ front := by
      have fresh := linkedChain.nodup
      simp only [List.nodup_append, List.append_assoc] at fresh
      exact fun member => fresh.2.2 previous member previous (by simp) rfl
    refine ⟨left, ?_, rfl, ?_, rfl, distinct, inserted, fun thread => ?_,
      Function.update_self _ _ _, ?_⟩
    · exact ok.freeChain.update notFree tn
    · obtain ⟨middle, visited, _⟩ := segment_append.mp linkedChain
      exact segment_append.mpr ⟨tn, visited.store absent, cutChain.update notCut tn⟩
    · refine ok.inserters_frame (fun e thread holds => ⟨?_, held e thread holds⟩) thread
      refine Function.update_of_ne ?_ _ _
      rintro rfl
      exact ok.not_inserting (by simp [QueueLists.all, inside]) thread holds
    · simpa using freeing

omit [DecidableEq Thread] [DecidableEq Addr] in
theorem takeFree (ok : AtomicQueueOk lists state) {t : Option Addr}
    (pc : state.consumer = .cmpxchg t) (current : state.freeHead = t) :
    AtomicQueueOk ⟨[], lists.free, lists.linked, lists.cut⟩
      { state with freeHead := none, consumer := .testPrivate t } := by
  have takenChain := ok.takenChain
  have cutChain := ok.cutChain
  rw [pc] at takenChain cutChain
  have noTaken : lists.taken = [] := chain_none.mp takenChain
  have same : (QueueLists.mk [] lists.free lists.linked lists.cut).all = lists.all := by
    simp [QueueLists.all, noTaken]
  constructor
  · rfl
  · exact current ▸ ok.freeChain
  · exact ok.linkedChain
  · exact cutChain
  · exact same ▸ ok.distinct
  · exact fun addr => same ▸ ok.inserted addr
  · exact ok.inserters
  · trivial

omit [DecidableEq Thread] [DecidableEq Addr] in
theorem storeHead (ok : AtomicQueueOk lists state) {t : Option Addr}
    (pc : state.consumer = .storeHead t) :
    AtomicQueueOk ⟨lists.free, [], lists.taken, lists.cut⟩
      { state with privateHead := t, consumer := .walk none } := by
  have consumer := ok.consumer
  have takenChain := ok.takenChain
  have cutChain := ok.cutChain
  rw [pc] at consumer takenChain cutChain
  have nothing : lists.linked = [] := consumer
  have same : (QueueLists.mk lists.free [] lists.taken lists.cut).all = lists.all := by
    simp [QueueLists.all, nothing]
  constructor
  · exact ok.freeChain
  · rfl
  · exact takenChain
  · exact cutChain
  · exact same ▸ ok.distinct
  · exact fun addr => same ▸ ok.inserted addr
  · exact ok.inserters
  · exact ⟨[], lists.taken, rfl, rfl⟩

omit [DecidableEq Thread] in
theorem free (ok : AtomicQueueOk lists state) {e : Option Addr} {t : Addr}
    (pc : state.consumer = .free e t) :
    AtomicQueueOk lists
      { state with place := Function.update state.place t .unused, consumer := .walk e } := by
  have consumer := ok.consumer
  have takenChain := ok.takenChain
  have cutChain := ok.cutChain
  rw [pc] at consumer takenChain cutChain
  obtain ⟨removed, kept, rest, linked, rfl⟩ := consumer
  refine ⟨ok.freeChain, takenChain, ok.linkedChain, cutChain, ok.distinct, fun addr => ?_,
    fun thread => ?_, kept, rest, linked, rfl⟩
  · rw [ok.inserted addr]
    rcases eq_or_ne addr t with rfl | apart
    · simp [removed]
    · simp [apart]
  · refine ok.inserters_frame (fun e thread holds => ⟨rfl, ?_⟩) thread
    apply Function.update_of_ne
    rintro rfl
    simp [removed] at holds

omit [DecidableEq Thread] in
/-- The loop of `lrcu_list_get_tail` goes on by one element, or has found the
tail. -/
theorem getTailLoop (ok : AtomicQueueOk lists state) {e ePrev t : Option Addr}
    {after : AtomicQueue Thread Addr} (pc : state.consumer = .getTailLoop e ePrev t)
    (stepped : consumerStep state = some after) : AtomicQueueOk lists after := by
  have consumer := ok.consumer
  rw [pc] at consumer
  obtain ⟨kept, rest, linked, nonempty, chain, previous⟩ := consumer
  cases e with
  | none =>
      simp only [consumerStep, pc, Option.some.injEq] at stepped
      subst stepped
      obtain rfl := chain_none.mp chain
      apply ok.moveFrom pc
      · rfl
      · rfl
      · exact ⟨nonempty, by rw [previous, linked, List.append_nil]⟩
  | some e =>
      simp only [consumerStep, pc, Option.some.injEq] at stepped
      subst stepped
      cases rest with
      | nil => exact absurd chain (by simp [Chain])
      | cons first rest =>
          obtain ⟨same, chain⟩ := chain
          obtain rfl := Option.some.inj same
          apply ok.moveFrom pc
          · rfl
          · rfl
          · refine ⟨kept ++ [e], rest, ?_, nonempty, chain, by simp⟩
            rw [linked, List.append_assoc, List.singleton_append]

omit [DecidableEq Thread] in
theorem consumerStep_ok (ok : AtomicQueueOk lists state) {after : AtomicQueue Thread Addr}
    (stepped : consumerStep state = some after) : ∃ lists, AtomicQueueOk lists after := by
  have consumer := ok.consumer
  cases pc : state.consumer with
  | walk e => simp [consumerStep, pc] at stepped
  | testFree =>
      simp only [consumerStep, pc, Option.some.injEq] at stepped
      subst stepped
      refine ⟨lists, ok.move ?_ ?_ ?_⟩
      · split <;> simp [pc, ConsumerPc.taken]
      · split <;> simp [pc, ConsumerPc.cut]
      · split
        · exact ⟨[], lists.linked, rfl, rfl⟩
        · trivial
  | loadFree =>
      simp only [consumerStep, pc, Option.some.injEq] at stepped
      exact ⟨lists, stepped ▸ ok.moveFrom pc rfl rfl trivial⟩
  | cmpxchg t =>
      simp only [consumerStep, pc] at stepped
      split_ifs at stepped with current
      · exact ⟨_, Option.some.inj stepped ▸ ok.takeFree pc current⟩
      · obtain rfl := Option.some.inj stepped
        exact ⟨lists, ok.moveFrom pc rfl rfl trivial⟩
  | testPrivate t =>
      simp only [consumerStep, pc, Option.some.injEq] at stepped
      subst stepped
      have linkedChain := ok.linkedChain
      by_cases empty : state.privateHead = none
      · rw [empty] at linkedChain
        refine ⟨lists, ok.move ?_ ?_ ?_⟩
        · simp [pc, empty, ConsumerPc.taken]
        · simp [pc, empty, ConsumerPc.cut]
        · rw [if_pos empty]
          exact chain_none.mp linkedChain
      · refine ⟨lists, ok.move ?_ ?_ ?_⟩
        · simp [pc, empty, ConsumerPc.taken]
        · simp [pc, empty, ConsumerPc.cut]
        · rw [if_neg empty]
          intro none
          rw [none] at linkedChain
          exact empty linkedChain
  | storeHead t =>
      simp only [consumerStep, pc, Option.some.injEq] at stepped
      exact ⟨_, stepped ▸ ok.storeHead pc⟩
  | getTail t =>
      simp only [consumerStep, pc, Option.some.injEq] at stepped
      subst stepped
      rw [pc] at consumer
      exact ⟨lists, ok.moveFrom pc rfl rfl ⟨[], lists.linked, rfl, consumer, ok.linkedChain, rfl⟩⟩
  | getTailLoop e ePrev t => exact ⟨lists, ok.getTailLoop pc stepped⟩
  | storeTail ePrev t =>
      cases ePrev with
      | none => simp [consumerStep, pc] at stepped
      | some last =>
          simp only [consumerStep, pc, Option.some.injEq] at stepped
          exact ⟨_, stepped ▸ ok.storeTail pc⟩
  | unlinkLoad e =>
      simp only [consumerStep, pc, Option.map_eq_some_iff] at stepped
      obtain ⟨t, found, rfl⟩ := stepped
      rw [pc] at consumer
      obtain ⟨kept, n, rest, linked, rfl⟩ := consumer
      have first := behind_eq (linked ▸ ok.linkedChain)
      obtain rfl : n = t := by simpa [found] using first.symm
      exact ⟨lists, ok.moveFrom pc rfl rfl ⟨kept, rest, linked, rfl⟩⟩
  | unlinkNext e t =>
      simp only [consumerStep, pc, Option.some.injEq] at stepped
      subst stepped
      rw [pc] at consumer
      obtain ⟨kept, rest, linked, rfl⟩ := consumer
      have linkedChain := ok.linkedChain
      rw [linked] at linkedChain
      obtain ⟨_, _, behind⟩ := segment_append.mp linkedChain
      exact ⟨lists, ok.moveFrom pc rfl rfl ⟨kept, rest, linked, rfl, behind.2⟩⟩
  | unlinkClear e t tn =>
      simp only [consumerStep, pc, Option.some.injEq] at stepped
      obtain ⟨kept, rest, cleared⟩ := ok.unlinkClear pc
      exact ⟨_, stepped ▸ cleared⟩
  | unlinkStore e t tn => exact ok.unlinkStore pc stepped
  | free e t =>
      simp only [consumerStep, pc, Option.some.injEq] at stepped
      exact ⟨lists, stepped ▸ ok.free pc⟩

theorem step (ok : AtomicQueueOk lists state) {action : AtomicQueueAction Thread Addr}
    {after : AtomicQueue Thread Addr} (stepped : atomicQueueStep state action = some after) :
    ∃ lists, AtomicQueueOk lists after := by
  have consumer := ok.consumer
  cases action with
  | begin thread e junk =>
      simp only [atomicQueueStep, Option.ite_none_right_eq_some, Option.some.injEq] at stepped
      obtain ⟨⟨_, unused⟩, rfl⟩ := stepped
      exact ⟨lists, ok.ownWrite junk (.loadHead e) (Or.inl unused) (Function.update_self _ _ _)⟩
  | inserter thread => exact ok.insertAtomicStep_ok stepped
  | splice =>
      cases pc : state.consumer <;> simp [atomicQueueStep, pc] at stepped
      subst stepped
      exact ⟨lists, ok.moveFrom pc rfl rfl trivial⟩
  | advance =>
      cases pc : state.consumer <;> simp [atomicQueueStep, pc] at stepped
      rw [pc] at consumer
      obtain ⟨more, rfl⟩ := stepped
      obtain ⟨kept, rest, linked, rfl⟩ := consumer
      have first := behind_eq (linked ▸ ok.linkedChain)
      cases rest with
      | nil => exact absurd first more
      | cons e rest =>
          refine ⟨lists, ok.moveFrom pc rfl rfl ⟨kept ++ [e], rest, ?_, ?_⟩⟩
          · rw [linked, List.append_assoc, List.singleton_append]
          · rw [first, List.head?_cons, List.getLast?_concat]
  | unlink =>
      cases pc : state.consumer <;> simp [atomicQueueStep, pc] at stepped
      rw [pc] at consumer
      obtain ⟨more, rfl⟩ := stepped
      obtain ⟨kept, rest, linked, rfl⟩ := consumer
      have first := behind_eq (linked ▸ ok.linkedChain)
      cases rest with
      | nil => exact absurd first more
      | cons e rest =>
          exact ⟨lists, ok.moveFrom pc rfl rfl ⟨kept, e, rest, linked, rfl⟩⟩
  | consumer => exact ok.consumerStep_ok stepped

omit [DecidableEq Thread] in
theorem consumerStep_completes (ok : AtomicQueueOk lists state)
    (busy : ∀ e, state.consumer ≠ .walk e) : ∃ after, consumerStep state = some after := by
  have consumer := ok.consumer
  cases pc : state.consumer with
  | walk e => exact absurd pc (busy e)
  | cmpxchg t =>
      simp only [consumerStep, pc]
      split <;> exact ⟨_, rfl⟩
  | getTailLoop e ePrev t => cases e <;> exact ⟨_, by rw [consumerStep, pc]⟩
  | storeTail ePrev t =>
      rw [pc] at consumer
      obtain ⟨nonempty, rfl⟩ := consumer
      cases last : lists.linked.getLast? with
      | none => exact absurd (List.getLast?_eq_none_iff.mp last) nonempty
      | some ePrev =>
          rw [last] at pc
          exact ⟨_, by rw [consumerStep, pc]⟩
  | unlinkLoad e =>
      rw [pc] at consumer
      obtain ⟨kept, n, rest, linked, rfl⟩ := consumer
      have first := behind_eq (linked ▸ ok.linkedChain)
      rw [List.head?_cons] at first
      exact ⟨_, by simp only [consumerStep, pc, first, Option.map_some]; rfl⟩
  | unlinkStore e t tn => cases e <;> exact ⟨_, by rw [consumerStep, pc]⟩
  | testFree | loadFree | testPrivate | storeHead | getTail | unlinkNext | unlinkClear | free =>
      exact ⟨_, by rw [consumerStep, pc]⟩

end AtomicQueueOk

/-! ## Every interleaving -/

variable [DecidableEq Thread] [DecidableEq Addr]

theorem atomicQueueOk_of_reachable
    (reachable : Reachable (· = atomicQueueInit Thread Addr) atomicQueueStep state) :
    ∃ lists, AtomicQueueOk lists state := by
  apply reachable.invariant fun state => ∃ lists, AtomicQueueOk lists state
  · rintro state rfl
    exact ⟨_, AtomicQueueOk.init⟩
  · rintro state action after ⟨lists, ok⟩ stepped
    exact ok.step stepped

/-- In every state a node whose insertion has completed is once on exactly one
of four lists until it is removed: the free list, the private list, what a
running splice has taken, and what a running removal has cut off.  The last two
are empty between two operations of the consumer. -/
theorem atomicQueue_conserves
    (reachable : Reachable (· = atomicQueueInit Thread Addr) atomicQueueStep state) :
    ∃ lists : QueueLists Addr, Chain state.next state.freeHead lists.free ∧
      Chain state.next state.privateHead lists.linked ∧
      Chain state.next state.consumer.taken lists.taken ∧
      Chain state.next state.consumer.cut lists.cut ∧ lists.all.Nodup ∧
      (∀ addr, state.place addr = .inserted ↔ addr ∈ lists.all) ∧
      ∀ e, state.consumer = .walk e → lists.taken = [] ∧ lists.cut = [] := by
  obtain ⟨lists, ok⟩ := atomicQueueOk_of_reachable reachable
  refine ⟨lists, ok.freeChain, ok.linkedChain, ok.takenChain, ok.cutChain, ok.distinct,
    fun addr => (ok.inserted addr).symm, fun e between => ?_⟩
  have takenChain := ok.takenChain
  have cutChain := ok.cutChain
  rw [between] at takenChain cutChain
  exact ⟨chain_none.mp takenChain, chain_none.mp cutChain⟩

/-- Two threads push a node each, the second one while the first is between its
load and its compare-and-swap, and the consumer starts a splice. -/
def twoPushes : List (AtomicQueueAction Nat Nat) :=
  [.begin 0 1 none, .begin 1 2 (some 9), .inserter 0, .inserter 1, .inserter 1, .inserter 1,
    .inserter 0, .inserter 0, .inserter 0, .inserter 0, .splice, .consumer, .consumer]

/-- The compare-and-swap of the splice takes both nodes. -/
theorem atomicQueue_conserves_twoPushes :
    ∃ state lists, run atomicQueueStep (atomicQueueInit Nat Nat) (twoPushes ++ [.consumer]) =
        some state ∧
      Chain state.next (some 1) lists.taken ∧ lists.all.Nodup ∧
      (∀ addr, state.place addr = .inserted ↔ addr ∈ QueueLists.all lists) := by
  obtain ⟨state, ran, taken⟩ : ∃ state, run atomicQueueStep (atomicQueueInit Nat Nat)
      (twoPushes ++ [.consumer]) = some state ∧ state.consumer.taken = some 1 :=
    ⟨_, rfl, rfl⟩
  obtain ⟨lists, _, _, takenChain, _, distinct, inserted, _⟩ :=
    atomicQueue_conserves ⟨_, _, rfl, ran⟩
  exact ⟨state, lists, ran, taken ▸ takenChain, distinct, inserted⟩

/-- Between the compare-and-swap of the splice and its link, both heads are
`NULL` although two insertions have completed. -/
theorem inserted_on_no_list_of_splice :
    ∃ state, run atomicQueueStep (atomicQueueInit Nat Nat) (twoPushes ++ [.consumer]) =
        some state ∧
      state.place 1 = .inserted ∧ state.freeHead = none ∧ state.privateHead = none ∧
      ¬ ∃ free linked, Chain state.next state.freeHead free ∧
        Chain state.next state.privateHead linked ∧ 1 ∈ free ++ linked := by
  obtain ⟨state, ran, inserted, noFree, noPrivate⟩ : ∃ state,
      run atomicQueueStep (atomicQueueInit Nat Nat) (twoPushes ++ [.consumer]) = some state ∧
        state.place 1 = .inserted ∧ state.freeHead = none ∧ state.privateHead = none :=
    ⟨_, rfl, rfl, rfl, rfl⟩
  refine ⟨state, ran, inserted, noFree, noPrivate, ?_⟩
  rintro ⟨free, linked, freeChain, linkedChain, member⟩
  rw [noFree] at freeChain
  rw [noPrivate] at linkedChain
  rw [chain_none.mp freeChain, chain_none.mp linkedChain] at member
  exact List.not_mem_nil member

end LightRcu
