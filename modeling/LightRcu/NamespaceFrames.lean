import LightRcu.Execution
import LightRcu.NamespaceSteps

/-!
# What the steps of a namespace leave alone

Each kind of step changes a few fields of the state.  The shape lemmas name
them once, so that everything about the other fields follows by reduction.
-/

namespace LightRcu

variable {state next : NamespaceState}

/-- The steps of a thread in and out of its read sections. -/
inductive ReaderMove (state : NamespaceState) (i : ReaderId) :
    ReaderAction → NamespaceState → Prop
  | lockCount (idle : state.reader i = .idle)
      (registered : i ∈ state.lists.threads ∨ i ∈ state.lists.hungThreads) :
      ReaderMove state i .lockCount
        ((state.setLns i
          { state.lns i with counter := i32Succ (state.lns i).counter }).setReader i .entered)
  | lockFirst (entered : state.reader i = .entered) (first : (state.lns i).counter = 1) :
      ReaderMove state i .lockTest (state.setReader i (.storing state.version))
  | lockNested (entered : state.reader i = .entered) (nested : (state.lns i).counter ≠ 1) :
      ReaderMove state i .lockTest (state.setReader i .idle)
  | lockStore (version : Nat) (storing : state.reader i = .storing version) :
      ReaderMove state i .lockStore
        ((state.setLns i { state.lns i with version := version }).setReader i .idle)
  | dereference (cell : CellId) (obj : ObjId) (idle : state.reader i = .idle)
      (inside : (state.lns i).counter ≠ 0) (read : state.cell cell = some obj) :
      ReaderMove state i (.lrcuDereference cell) (state.setHeld i (obj :: state.held i))
  | dereferenceNull (cell : CellId) (read : state.cell cell = none) :
      ReaderMove state i (.lrcuDereference cell) state
  | unlockLast (idle : state.reader i = .idle) (last : (state.lns i).counter = 1) :
      ReaderMove state i .lrcuReadUnlockNs
        ((state.setLns i { state.lns i with counter := 0 }).setHeld i [])
  | unlockNested (idle : state.reader i = .idle) (nested : (state.lns i).counter ≠ 1)
      (counted : 0 ≤ i32Pred (state.lns i).counter) :
      ReaderMove state i .lrcuReadUnlockNs
        (state.setLns i { state.lns i with counter := i32Pred (state.lns i).counter })
  | setNs (free : state.threadsLock = none) :
      ReaderMove state i .lrcuThreadSetNs (state.setThreads (i :: state.lists.threads))
  | delNs (free : state.threadsLock = none) (left : (state.lns i).counter = 0) :
      ReaderMove state i .lrcuThreadDelNs (state.setThreads (state.lists.threads.erase i))

theorem readerMove_of_step {i : ReaderId} {action : ReaderAction}
    (stepped : readerStep state i action = some next) : ReaderMove state i action next := by
  cases action with
  | lockCount =>
      simp only [readerStep, Option.ite_none_right_eq_some, Option.some.injEq] at stepped
      obtain ⟨⟨idle, registered⟩, rfl⟩ := stepped
      exact .lockCount idle registered
  | lockTest =>
      simp only [readerStep, Option.ite_none_right_eq_some] at stepped
      obtain ⟨entered, stepped⟩ := stepped
      split_ifs at stepped with first
      · obtain rfl := Option.some.inj stepped
        exact .lockFirst entered first
      · obtain rfl := Option.some.inj stepped
        exact .lockNested entered first
  | lockStore =>
      simp only [readerStep] at stepped
      split at stepped
      next version storing =>
        obtain rfl := Option.some.inj stepped
        exact .lockStore version storing
      next => simp at stepped
  | lrcuDereference cell =>
      simp only [readerStep, Option.ite_none_right_eq_some] at stepped
      obtain ⟨⟨idle, inside⟩, stepped⟩ := stepped
      split at stepped
      next obj read =>
        obtain rfl := Option.some.inj stepped
        exact .dereference cell obj idle inside read
      next read =>
        obtain rfl := Option.some.inj stepped
        exact .dereferenceNull cell read
  | lrcuReadUnlockNs =>
      simp only [readerStep, Option.ite_none_right_eq_some] at stepped
      obtain ⟨⟨idle, counted⟩, stepped⟩ := stepped
      split_ifs at stepped with last
      · obtain rfl := Option.some.inj stepped
        rw [last]
        exact .unlockLast idle last
      · obtain rfl := Option.some.inj stepped
        exact .unlockNested idle last counted
  | lrcuThreadSetNs =>
      simp only [readerStep, Option.ite_none_right_eq_some, Option.some.injEq] at stepped
      obtain ⟨free, rfl⟩ := stepped
      exact .setNs free
  | lrcuThreadDelNs =>
      simp only [readerStep, Option.ite_none_right_eq_some, Option.some.injEq] at stepped
      obtain ⟨⟨free, _, left⟩, rfl⟩ := stepped
      exact .delNs free left

theorem ReaderMove.shape {i : ReaderId} {action : ReaderAction}
    (move : ReaderMove state i action next) :
    ∃ lns reader held threads,
      next = { state with
        lns := lns
        reader := reader
        held := held
        lists := { state.lists with threads := threads } } ∧
      (∀ j, j ≠ i → lns j = state.lns j ∧ reader j = state.reader j ∧ held j = state.held j) ∧
      (threads = state.lists.threads ∨ state.threadsLock = none) := by
  cases move with
  | lockCount | lockStore =>
      refine ⟨_, _, _, _, rfl, fun j other => ⟨?_, ?_, rfl⟩, Or.inl rfl⟩
      · exact Function.update_of_ne other _ _
      · exact Function.update_of_ne other _ _
  | lockFirst | lockNested =>
      exact ⟨_, _, _, _, rfl, fun j other => ⟨rfl, Function.update_of_ne other _ _, rfl⟩,
        Or.inl rfl⟩
  | dereference =>
      exact ⟨_, _, _, _, rfl, fun j other => ⟨rfl, rfl, Function.update_of_ne other _ _⟩,
        Or.inl rfl⟩
  | dereferenceNull => exact ⟨_, _, _, _, rfl, fun _ _ => ⟨rfl, rfl, rfl⟩, Or.inl rfl⟩
  | unlockLast =>
      refine ⟨_, _, _, _, rfl, fun j other => ⟨?_, rfl, ?_⟩, Or.inl rfl⟩
      · exact Function.update_of_ne other _ _
      · exact Function.update_of_ne other _ _
  | unlockNested =>
      exact ⟨_, _, _, _, rfl, fun j other => ⟨Function.update_of_ne other _ _, rfl, rfl⟩,
        Or.inl rfl⟩
  | setNs free | delNs free =>
      exact ⟨_, _, _, _, rfl, fun _ _ => ⟨rfl, rfl, rfl⟩, Or.inr free⟩

/-- The steps of writers. -/
inductive WriterMove (state : NamespaceState) : NamespaceState → Prop
  | lrcuSpinLock : WriterMove state { state with writer := some .locked }
  | bumpVersion : WriterMove state
      { state with version := u64Succ state.version, writer := some .inside }
  | assignBarrier (cell : CellId) (new : Option ObjId) : WriterMove state
      { state with version := u64Succ state.version, writer := some (.assigning cell new) }
  | assignStore (cell : CellId) (new : Option ObjId)
      (fresh : ∀ obj ∈ new, state.stage obj = .unused) (stage : ObjId → ObjStage)
      (stages : ∀ obj, stage obj =
        if state.cell cell = some obj then .retired
        else if new = some obj then .published else state.stage obj) :
      WriterMove state
        { state with
          cell := Function.update state.cell cell new
          stage := stage
          writer := some .inside }
  | lrcuWriteUnlockNs : WriterMove state { state with writer := none }
  | lrcuWriteBarrierNs : WriterMove state { state with version := u64Succ state.version }

theorem writerMove_of_step {action : WriterAction}
    (stepped : writerStep state action = some next) : WriterMove state next := by
  cases action with
  | lrcuSpinLock =>
      simp only [writerStep, Option.ite_none_right_eq_some, Option.some.injEq] at stepped
      exact stepped.2 ▸ .lrcuSpinLock
  | bumpVersion =>
      simp only [writerStep, Option.ite_none_right_eq_some, Option.some.injEq] at stepped
      exact stepped.2 ▸ .bumpVersion
  | assignBarrier cell new =>
      simp only [writerStep, Option.ite_none_right_eq_some, Option.some.injEq] at stepped
      exact stepped.2 ▸ .assignBarrier cell new
  | assignStore =>
      simp only [writerStep] at stepped
      split at stepped
      next cell new _ =>
        simp only [Option.ite_none_right_eq_some, Option.some.injEq] at stepped
        obtain ⟨fresh, rfl⟩ := stepped
        cases old : state.cell cell with
        | none =>
            cases new with
            | none => exact .assignStore cell none fresh state.stage (by simp [old])
            | some obj =>
                refine .assignStore cell (some obj) fresh
                  (Function.update state.stage obj .published) ?_
                simp [old, Function.update_apply, eq_comm]
        | some replaced =>
            cases new with
            | none =>
                refine .assignStore cell none fresh
                  (Function.update state.stage replaced .retired) ?_
                simp [old, Function.update_apply, eq_comm]
            | some obj =>
                refine .assignStore cell (some obj) fresh (Function.update
                  (Function.update state.stage obj .published) replaced .retired) ?_
                simp [old, Function.update_apply, eq_comm]
      next => simp at stepped
  | lrcuWriteUnlockNs =>
      simp only [writerStep, Option.ite_none_right_eq_some, Option.some.injEq] at stepped
      exact stepped.2 ▸ .lrcuWriteUnlockNs
  | lrcuWriteBarrierNs =>
      obtain rfl := Option.some.inj stepped
      exact .lrcuWriteBarrierNs

theorem WriterMove.shape (move : WriterMove state next) :
    ∃ version cell stage writer,
      next = { state with version := version, cell := cell, stage := stage, writer := writer } := by
  cases move <;> exact ⟨_, _, _, _, rfl⟩

/-- The steps of `lrcu_call_ns` and `lrcu_call_head_ns`. -/
inductive CallMove (state : NamespaceState) (obj : ObjId) :
    CallAction → NamespaceState → Prop
  | retire (unused : state.stage obj = .unused) :
      CallMove state obj .retire (state.setStage obj .retired)
  | loadVersion (head : Bool) (retired : state.stage obj = .retired) :
      CallMove state obj (.loadVersion head)
        (state.setStage obj (.calling state.version head))
  | insert (version : Nat) (calling : state.stage obj = .calling version false) :
      CallMove state obj .insert { state.setStage obj .queued with
        freeList := ⟨obj, version⟩ :: state.freeList }
  | insertHead (version : Nat) (calling : state.stage obj = .calling version true) :
      CallMove state obj .insert { state.setStage obj .queued with
        freeHlist := ⟨obj, version⟩ :: state.freeHlist }

theorem callMove_of_step {obj : ObjId} {action : CallAction}
    (stepped : callStep state obj action = some next) : CallMove state obj action next := by
  cases action with
  | retire =>
      simp only [callStep, Option.ite_none_right_eq_some, Option.some.injEq] at stepped
      exact stepped.2 ▸ .retire stepped.1
  | loadVersion head =>
      simp only [callStep, Option.ite_none_right_eq_some, Option.some.injEq] at stepped
      exact stepped.2 ▸ .loadVersion head stepped.1
  | insert =>
      simp only [callStep] at stepped
      split at stepped
      next version head calling =>
        cases head with
        | false => exact Option.some.inj stepped ▸ .insert version calling
        | true => exact Option.some.inj stepped ▸ .insertHead version calling
      next => simp at stepped

theorem CallMove.shape {obj : ObjId} {action : CallAction}
    (move : CallMove state obj action next) :
    ∃ stage freeList freeHlist,
      next = { state with stage := stage, freeList := freeList, freeHlist := freeHlist } := by
  cases move <;> exact ⟨_, _, _, rfl⟩

/-- The steps of a pass, one constructor for each action. -/
inductive PassMove (state : NamespaceState) (owner : PassOwner) :
    PassPc → PassAction → NamespaceState → PassPc → Prop
  | loadVersion (rbt : LrcuRangetree) :
      PassMove state owner (.loadVersion rbt) .loadVersion state
        (.lockThreads state.version rbt)
  | lockThreads (currentVersion : Nat) (rbt : LrcuRangetree)
      (free : state.threadsLock = none) :
      PassMove state owner (.lockThreads currentVersion rbt) .lockThreads
        { state with threadsLock := some owner }
        (.visiting .threads currentVersion 0 none none rbt)
  | loadLnsVersion (loop : PassLoop) (currentVersion index : Nat) (counter : Option Int)
      (rbt : LrcuRangetree) (ti : ReaderId)
      (found : (state.lists.walked loop)[index]? = some ti) :
      PassMove state owner (.visiting loop currentVersion index none counter rbt)
        .loadLnsVersion state
        (.visiting loop currentVersion index (some (state.lns ti).version) counter rbt)
  | loadLnsCounter (loop : PassLoop) (currentVersion index : Nat) (version : Option Nat)
      (rbt : LrcuRangetree) (ti : ReaderId)
      (found : (state.lists.walked loop)[index]? = some ti) :
      PassMove state owner (.visiting loop currentVersion index version none rbt)
        .loadLnsCounter state
        (.visiting loop currentVersion index version (some (state.lns ti).counter) rbt)
  | visit (loop : PassLoop) (currentVersion index version : Nat) (counter : Int)
      (rbt : LrcuRangetree) (now : Nat) (visited : PassState ReaderId)
      (visits : visitNext loop currentVersion ⟨state.lists, index, rbt⟩
        ⟨⟨version, counter⟩, now⟩ = some visited) :
      PassMove state owner
        (.visiting loop currentVersion index (some version) (some counter) rbt) (.visit now)
        { state with lists := visited.lists }
        (.visiting loop currentVersion visited.index none none visited.rbt)
  | nextLoop (currentVersion index : Nat) (rbt : LrcuRangetree)
      (all : state.lists.threads.length ≤ index) :
      PassMove state owner (.visiting .threads currentVersion index none none rbt) .nextLoop
        state (.visiting .hungThreads currentVersion 0 none none rbt)
  | unlockThreads (currentVersion index : Nat) (rbt merged : LrcuRangetree) (room : Bool)
      (all : state.lists.hungThreads.length ≤ index)
      (optimized : lrcuRangetreeOptimize rbt .merge = some (merged, room)) :
      PassMove state owner (.visiting .hungThreads currentVersion index none none rbt)
        .unlockThreads { state with threadsLock := none } (.finished merged)

theorem passMove_of_step {owner : PassOwner} {pass pass' : PassPc} {action : PassAction}
    (stepped : passStep state owner pass action = some (next, pass')) :
    PassMove state owner pass action next pass' := by
  cases action with
  | loadVersion =>
      simp only [passStep] at stepped
      split at stepped
      next rbt =>
        cases stepped
        exact .loadVersion rbt
      next => simp at stepped
  | lockThreads =>
      simp only [passStep] at stepped
      split at stepped
      next currentVersion rbt =>
        simp only [Option.ite_none_right_eq_some] at stepped
        obtain ⟨free, stepped⟩ := stepped
        cases stepped
        exact .lockThreads currentVersion rbt free
      next => simp at stepped
  | loadLnsVersion =>
      simp only [passStep] at stepped
      split at stepped
      next loop currentVersion index counter rbt =>
        obtain ⟨ti, found, same⟩ := Option.map_eq_some_iff.mp stepped
        cases same
        exact .loadLnsVersion loop currentVersion index counter rbt ti found
      next => simp at stepped
  | loadLnsCounter =>
      simp only [passStep] at stepped
      split at stepped
      next loop currentVersion index version rbt =>
        obtain ⟨ti, found, same⟩ := Option.map_eq_some_iff.mp stepped
        cases same
        exact .loadLnsCounter loop currentVersion index version rbt ti found
      next => simp at stepped
  | visit now =>
      simp only [passStep] at stepped
      split at stepped
      next loop currentVersion index version counter rbt =>
        obtain ⟨visited, visits, same⟩ := Option.map_eq_some_iff.mp stepped
        cases same
        exact .visit loop currentVersion index version counter rbt now visited visits
      next => simp at stepped
  | nextLoop =>
      simp only [passStep] at stepped
      split at stepped
      next currentVersion index rbt =>
        simp only [Option.ite_none_left_eq_some] at stepped
        obtain ⟨all, stepped⟩ := stepped
        cases stepped
        exact .nextLoop currentVersion index rbt (Nat.not_lt.mp all)
      next => simp at stepped
  | unlockThreads =>
      simp only [passStep] at stepped
      split at stepped
      next currentVersion index rbt =>
        simp only [Option.ite_none_left_eq_some] at stepped
        obtain ⟨all, stepped⟩ := stepped
        obtain ⟨⟨merged, room⟩, optimized, same⟩ := Option.map_eq_some_iff.mp stepped
        cases same
        exact .unlockThreads currentVersion index rbt merged room (Nat.not_lt.mp all) optimized
      next => simp at stepped

theorem PassMove.shape {owner : PassOwner} {pass pass' : PassPc} {action : PassAction}
    (move : PassMove state owner pass action next pass') :
    ∃ lists lock, next = { state with lists := lists, threadsLock := lock } := by
  cases move <;> exact ⟨_, _, rfl⟩

/-- The steps of the worker outside its passes. -/
inductive WorkerMove (state : NamespaceState) : NamespaceState → Prop
  | skipFreeList (pc : state.worker = .testFreeList) (empty : state.freeList = []) :
      WorkerMove state { state with worker := .testFreeHlist }
  | testFreeList (pc : state.worker = .testFreeList) :
      WorkerMove state { state with worker := .spliceFreeList }
  | spliceFreeList (pc : state.worker = .spliceFreeList) :
      WorkerMove state { state with
        workerList := state.workerList ++ state.freeList
        freeList := []
        worker := .testFreeHlist }
  | skipFreeHlist (pc : state.worker = .testFreeHlist) (empty : state.freeHlist = []) :
      WorkerMove state { state with worker := .testWorkerLists }
  | testFreeHlist (pc : state.worker = .testFreeHlist) :
      WorkerMove state { state with worker := .spliceFreeHlist }
  | spliceFreeHlist (pc : state.worker = .spliceFreeHlist) :
      WorkerMove state { state with
        workerHlist := state.workerHlist ++ state.freeHlist
        freeHlist := []
        worker := .testWorkerLists }
  | skipPass (pc : state.worker = .testWorkerLists) :
      WorkerMove state { state with worker := .writeBarrier }
  | startPass (pc : state.worker = .testWorkerLists) :
      WorkerMove state { state with
        worker := .passing (.loadVersion (rangeBintreeInit state.ranges lrcuThreadsMax)) }
  | endPass (rbt : LrcuRangetree) (pc : state.worker = .passing (.finished rbt)) :
      WorkerMove state { state with worker := .walkList 0 rbt }
  | leaveList (index : Nat) (rbt : LrcuRangetree) (pc : state.worker = .walkList index rbt)
      (ended : state.workerList[index]? = none) :
      WorkerMove state { state with worker := .walkHlist 0 rbt }
  | keep (index : Nat) (rbt : LrcuRangetree) (pc : state.worker = .walkList index rbt)
      (callback : Callback ObjId) (found : state.workerList[index]? = some callback)
      (held : lrcuRangetreeFind rbt callback.version = true) :
      WorkerMove state { state with worker := .walkList (index + 1) rbt }
  | destroy (index : Nat) (rbt : LrcuRangetree) (pc : state.worker = .walkList index rbt)
      (callback : Callback ObjId) (found : state.workerList[index]? = some callback)
      (free : lrcuRangetreeFind rbt callback.version = false) :
      WorkerMove state { state.setStage callback.obj .destroyed with
        workerList := state.workerList.eraseIdx index }
  | leaveHlist (index : Nat) (rbt : LrcuRangetree) (pc : state.worker = .walkHlist index rbt)
      (ended : state.workerHlist[index]? = none) :
      WorkerMove state { state with worker := .storeMin rbt }
  | keepHead (index : Nat) (rbt : LrcuRangetree) (pc : state.worker = .walkHlist index rbt)
      (callback : Callback ObjId) (found : state.workerHlist[index]? = some callback)
      (held : lrcuRangetreeFind rbt callback.version = true) :
      WorkerMove state { state with worker := .walkHlist (index + 1) rbt }
  | destroyHead (index : Nat) (rbt : LrcuRangetree) (pc : state.worker = .walkHlist index rbt)
      (callback : Callback ObjId) (found : state.workerHlist[index]? = some callback)
      (free : lrcuRangetreeFind rbt callback.version = false) :
      WorkerMove state { state.setStage callback.obj .destroyed with
        workerHlist := state.workerHlist.eraseIdx index }
  | storeMin (rbt : LrcuRangetree) (pc : state.worker = .storeMin rbt) (minv : Nat)
      (getmin : lrcuRangetreeGetmin rbt = some minv) :
      WorkerMove state { state with
        processedVersion := minv
        ranges := rbt.r
        worker := .testProcessed }
  | testProcessed (pc : state.worker = .testProcessed) :
      WorkerMove state { state with worker := .storeNext state.version }
  | skipProcessed (pc : state.worker = .testProcessed) :
      WorkerMove state { state with worker := .writeBarrier }
  | storeNext (version : Nat) (pc : state.worker = .storeNext version) :
      WorkerMove state
        { state with processedVersion := u64Succ version, worker := .writeBarrier }
  | writeBarrier (pc : state.worker = .writeBarrier) :
      WorkerMove state { state with version := u64Succ state.version, worker := .testEmpty }
  | testEmpty (pc : state.worker = .testEmpty)
      (empty : state.workerList = [] ∧ state.workerHlist = []) :
      WorkerMove state { state with worker := .storeVersion state.version }
  | skipEmpty (pc : state.worker = .testEmpty) :
      WorkerMove state { state with worker := .testFreeList }
  | storeVersion (version : Nat) (pc : state.worker = .storeVersion version) :
      WorkerMove state { state with processedVersion := version, worker := .testFreeList }

theorem workerMove_of_step (stepped : workerStep state = some next) :
    WorkerMove state next := by
  unfold workerStep at stepped
  cases pc : state.worker with
  | testFreeList =>
      simp only [pc] at stepped
      split_ifs at stepped with empty
      · exact Option.some.inj stepped ▸ .skipFreeList pc (List.isEmpty_iff.mp empty)
      · exact Option.some.inj stepped ▸ .testFreeList pc
  | spliceFreeList =>
      simp only [pc] at stepped
      exact Option.some.inj stepped ▸ .spliceFreeList pc
  | testFreeHlist =>
      simp only [pc] at stepped
      split_ifs at stepped with empty
      · exact Option.some.inj stepped ▸ .skipFreeHlist pc (List.isEmpty_iff.mp empty)
      · exact Option.some.inj stepped ▸ .testFreeHlist pc
  | spliceFreeHlist =>
      simp only [pc] at stepped
      exact Option.some.inj stepped ▸ .spliceFreeHlist pc
  | testWorkerLists =>
      simp only [pc] at stepped
      split_ifs at stepped
      · exact Option.some.inj stepped ▸ .skipPass pc
      · exact Option.some.inj stepped ▸ .startPass pc
  | passing pass =>
      cases pass with
      | finished rbt =>
          simp only [pc] at stepped
          exact Option.some.inj stepped ▸ .endPass rbt pc
      | loadVersion => simp [pc] at stepped
      | lockThreads => simp [pc] at stepped
      | visiting => simp [pc] at stepped
  | walkList index rbt =>
      simp only [pc] at stepped
      split at stepped
      next ended => exact Option.some.inj stepped ▸ .leaveList index rbt pc ended
      next callback found =>
        split_ifs at stepped with held
        · exact Option.some.inj stepped ▸ .keep index rbt pc callback found held
        · exact Option.some.inj stepped ▸ .destroy index rbt pc callback found (by simpa using held)
  | walkHlist index rbt =>
      simp only [pc] at stepped
      split at stepped
      next ended => exact Option.some.inj stepped ▸ .leaveHlist index rbt pc ended
      next callback found =>
        split_ifs at stepped with held
        · exact Option.some.inj stepped ▸ .keepHead index rbt pc callback found held
        · exact Option.some.inj stepped ▸
            .destroyHead index rbt pc callback found (by simpa using held)
  | storeMin rbt =>
      simp only [pc] at stepped
      obtain ⟨minv, getmin, same⟩ := Option.map_eq_some_iff.mp stepped
      exact same ▸ .storeMin rbt pc minv getmin
  | testProcessed =>
      simp only [pc] at stepped
      split_ifs at stepped
      · exact Option.some.inj stepped ▸ .testProcessed pc
      · exact Option.some.inj stepped ▸ .skipProcessed pc
  | storeNext version =>
      simp only [pc] at stepped
      exact Option.some.inj stepped ▸ .storeNext version pc
  | writeBarrier =>
      simp only [pc] at stepped
      exact Option.some.inj stepped ▸ .writeBarrier pc
  | testEmpty =>
      simp only [pc] at stepped
      split_ifs at stepped with empty
      · exact Option.some.inj stepped ▸ .testEmpty pc (by simpa using empty)
      · exact Option.some.inj stepped ▸ .skipEmpty pc
  | storeVersion version =>
      simp only [pc] at stepped
      exact Option.some.inj stepped ▸ .storeVersion version pc

/-- What a step of the worker leaves alone. -/
structure WorkerFrame (state next : NamespaceState) : Prop where
  lns : next.lns = state.lns
  reader : next.reader = state.reader
  held : next.held = state.held
  lists : next.lists = state.lists
  threadsLock : next.threadsLock = state.threadsLock
  cell : next.cell = state.cell
  writer : next.writer = state.writer
  caller : next.caller = state.caller

theorem WorkerMove.frame (move : WorkerMove state next) : WorkerFrame state next := by
  cases move <;> exact ⟨rfl, rfl, rfl, rfl, rfl, rfl, rfl, rfl⟩

/-- The steps of a caller outside its passes. -/
inductive CallerMove (state : NamespaceState) (c : CallerId) : CallerPc → CallerPc → Prop
  | loadVersion (barrier : Bool) (ranges : Nat → LrcuRange) :
      CallerMove state c (.loadVersion barrier ranges)
        (.waiting barrier state.version
          (.loadVersion (rangeBintreeInit ranges lrcuThreadsMax)))
  | again (barrier : Bool) (currentVersion : Nat) (rbt : LrcuRangetree)
      (held : lrcuRangetreeFind rbt currentVersion = true) :
      CallerMove state c (.waiting barrier currentVersion (.finished rbt))
        (.waiting barrier currentVersion (.loadVersion (rangeBintreeInit rbt.r lrcuThreadsMax)))
  | leave (currentVersion : Nat) (rbt : LrcuRangetree)
      (free : lrcuRangetreeFind rbt currentVersion = false) :
      CallerMove state c (.waiting false currentVersion (.finished rbt)) .idle
  | leaveBarrier (currentVersion : Nat) (rbt : LrcuRangetree)
      (free : lrcuRangetreeFind rbt currentVersion = false) :
      CallerMove state c (.waiting true currentVersion (.finished rbt)) .loadBarrier
  | loadBarrier : CallerMove state c .loadBarrier (.polling state.version)
  | passBarrier (currentVersion : Nat) (processed : currentVersion < state.processedVersion) :
      CallerMove state c (.polling currentVersion) .idle
  | poll (currentVersion : Nat) :
      CallerMove state c (.polling currentVersion) (.polling currentVersion)

theorem callerMove_of_step {c : CallerId} (stepped : callerStep state c = some next) :
    ∃ pc, CallerMove state c (state.caller c) pc ∧ next = state.setCaller c pc := by
  unfold callerStep at stepped
  cases pc : state.caller c with
  | idle => simp [pc] at stepped
  | loadVersion barrier ranges =>
      simp only [pc] at stepped
      exact ⟨_, .loadVersion barrier ranges, (Option.some.inj stepped).symm⟩
  | waiting barrier currentVersion pass =>
      cases pass with
      | finished rbt =>
          simp only [pc] at stepped
          split_ifs at stepped with held barred
          · exact ⟨_, .again barrier currentVersion rbt held, (Option.some.inj stepped).symm⟩
          · subst barred
            exact ⟨_, .leaveBarrier currentVersion rbt (by simpa using held),
              (Option.some.inj stepped).symm⟩
          · obtain rfl := Bool.eq_false_of_not_eq_true barred
            exact ⟨_, .leave currentVersion rbt (by simpa using held),
              (Option.some.inj stepped).symm⟩
      | loadVersion => simp [pc] at stepped
      | lockThreads => simp [pc] at stepped
      | visiting => simp [pc] at stepped
  | loadBarrier =>
      simp only [pc] at stepped
      exact ⟨_, .loadBarrier, (Option.some.inj stepped).symm⟩
  | polling currentVersion =>
      simp only [pc] at stepped
      split_ifs at stepped with processed
      · exact ⟨_, .passBarrier currentVersion processed, (Option.some.inj stepped).symm⟩
      · refine ⟨_, .poll currentVersion, ?_⟩
        obtain rfl := Option.some.inj stepped
        simp [NamespaceState.setCaller, ← pc]

end LightRcu
