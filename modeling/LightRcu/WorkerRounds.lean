import LightRcu.NamespacePasses

/-!
# A round of the worker by itself

From the test of its two lists until it has assigned `ns->processed_version`,
the steps of a worker that nobody disturbs compute the iteration of
`lrcu_worker` as one function.  Its pass then samples the local namespaces of
the threads as they are.
-/

namespace LightRcu

open Execution

/-! ## Loops as runs -/

section Loops

variable {Ti : Type*} [DecidableEq Ti]

/-- A loop is a run of its iterations that ends behind the last thread. -/
theorem visitAll_eq_some_iff {loop : PassLoop} {currentVersion : Nat} {samples : List Sample}
    {pass final : PassState Ti} :
    visitAll loop currentVersion samples pass = some final ↔
      run (visitNext loop currentVersion) pass samples = some final ∧
        (final.lists.walked loop).length ≤ final.index := by
  induction samples generalizing pass with
  | nil =>
      rw [visitAll, run_nil]
      split_ifs with more
      · refine iff_of_false (by simp) fun ended => ?_
        obtain rfl := Option.some.inj ended.1
        exact absurd more (Nat.not_lt.mpr ended.2)
      · refine ⟨fun same => ?_, And.left⟩
        obtain rfl := Option.some.inj same
        exact ⟨rfl, Nat.not_lt.mp more⟩
  | cons sample samples ih =>
      rw [visitAll, Option.bind_eq_some_iff, run_cons_eq_some_iff]
      constructor
      · rintro ⟨next, visited, walked⟩
        obtain ⟨ran, ended⟩ := ih.mp walked
        exact ⟨⟨next, visited, ran⟩, ended⟩
      · rintro ⟨⟨next, visited, ran⟩, ended⟩
        exact ⟨next, visited, ih.mpr ⟨ran, ended⟩⟩

/-- The first loop puts threads that it has walked in front of the hung ones. -/
theorem hungThreads_of_run {currentVersion : Nat} {first pass : PassState Ti}
    {samples : List Sample}
    (ran : run (visitNext .threads currentVersion) first samples = some pass) :
    ∃ moved ⊆ first.lists.threads,
      pass.lists.hungThreads = moved ++ first.lists.hungThreads := by
  have holds : pass.lists.threads ⊆ first.lists.threads ∧ ∃ moved ⊆ first.lists.threads,
      pass.lists.hungThreads = moved ++ first.lists.hungThreads := by
    apply run_preserves (fun pass => pass.lists.threads ⊆ first.lists.threads ∧
      ∃ moved ⊆ first.lists.threads, pass.lists.hungThreads = moved ++ first.lists.hungThreads)
      ?_ ⟨fun _ => id, [], by simp, rfl⟩ ran
    rintro pass sample next ⟨within, moved, inside, hung⟩ visited
    obtain ⟨ti, found, _, ⟨_, _, lists⟩ | ⟨_, _, lists⟩⟩ := visitNext_cases visited
    · refine ⟨?_, ti :: moved, ?_, ?_⟩
      · rw [lists]
        exact fun other member => within (List.mem_of_mem_eraseIdx member)
      · exact List.cons_subset.mpr ⟨within (List.mem_of_getElem? found), inside⟩
      · rw [lists, List.cons_append, ← hung]
        rfl
    · rw [lists]
      exact ⟨within, moved, inside, hung⟩
  exact holds.2

end Loops

/-! ## The pass -/

variable {start state next : NamespaceState}

/-- The samples of a pass that nobody disturbs: the second loop also comes to
the threads that the first one has moved. -/
structure UndisturbedSamples (start : NamespaceState) (samples hungSamples : List Sample) :
    Prop where
  threads : samples.map Sample.lns = start.lists.threads.map start.lns
  hungThreads : ∃ moved ⊆ start.lists.threads,
    hungSamples.map Sample.lns = (moved ++ start.lists.hungThreads).map start.lns

/-- The set that the pass begins with. -/
def firstPassState (start : NamespaceState) : PassState ReaderId :=
  ⟨start.lists, 0, rangeBintreeInit start.ranges lrcuThreadsMax⟩

/-- A loop of the pass has come from its first state to the given one. -/
def LoopAt (start : NamespaceState) (loop : PassLoop) (first pass : PassState ReaderId) : Prop :=
  ∃ samples visited, run (visitNext loop start.version) first samples = some pass ∧
    samples.map Sample.lns = visited.map start.lns ∧
      first.lists.walked loop = visited ++ (pass.lists.walked loop).drop pass.index

/-- What the pass has loaded of the thread that it is at. -/
def LoadedOf (start : NamespaceState) (at_ : Option ReaderId) (version : Option Nat)
    (counter : Option Int) : Prop :=
  ∀ ti ∈ at_, (∀ loaded ∈ version, loaded = (start.lns ti).version) ∧
    ∀ count ∈ counter, count = (start.lns ti).counter

/-- The second loop has begun behind the first one. -/
def SecondLoopAt (start : NamespaceState) (pass : PassState ReaderId) : Prop :=
  ∃ samples middle, visitAll .threads start.version samples (firstPassState start) = some middle ∧
    samples.map Sample.lns = start.lists.threads.map start.lns ∧
      LoopAt start .hungThreads { middle with index := 0 } pass

/-- Where the pass of the worker is, when it started in the given state. -/
def RoundPass (start : NamespaceState) (lists : ThreadLists ReaderId) : PassPc → Prop
  | .loadVersion rbt => ⟨lists, 0, rbt⟩ = firstPassState start
  | .lockThreads currentVersion rbt =>
      currentVersion = start.version ∧ ⟨lists, 0, rbt⟩ = firstPassState start
  | .visiting .threads currentVersion index version counter rbt =>
      currentVersion = start.version ∧ LoadedOf start lists.threads[index]? version counter ∧
        LoopAt start .threads (firstPassState start) ⟨lists, index, rbt⟩
  | .visiting .hungThreads currentVersion index version counter rbt =>
      currentVersion = start.version ∧ LoadedOf start lists.hungThreads[index]? version counter ∧
        SecondLoopAt start ⟨lists, index, rbt⟩
  | .finished rbt =>
      ∃ samples hungSamples, UndisturbedSamples start samples hungSamples ∧
        PassInput.run ⟨start.version, samples, hungSamples, start.lists⟩ start.ranges =
          some (lists, rbt)

theorem LoadedOf.loadVersion {at_ : Option ReaderId} {counter : Option Int} {ti : ReaderId}
    {version : Nat} (loaded : LoadedOf start at_ none counter) (found : at_ = some ti)
    (same : version = (start.lns ti).version) : LoadedOf start at_ (some version) counter := by
  subst found
  intro other here
  obtain rfl := Option.some.inj here
  exact ⟨fun value here => (Option.some.inj here).symm.trans same, (loaded ti rfl).2⟩

theorem LoadedOf.loadCounter {at_ : Option ReaderId} {version : Option Nat} {ti : ReaderId}
    {counter : Int} (loaded : LoadedOf start at_ version none) (found : at_ = some ti)
    (same : counter = (start.lns ti).counter) : LoadedOf start at_ version (some counter) := by
  subst found
  intro other here
  obtain rfl := Option.some.inj here
  exact ⟨(loaded ti rfl).1, fun value here => (Option.some.inj here).symm.trans same⟩

theorem LoopAt.begin {loop : PassLoop} {first : PassState ReaderId} (zero : first.index = 0) :
    LoopAt start loop first first :=
  ⟨[], [], rfl, rfl, by rw [zero, List.drop_zero, List.nil_append]⟩

theorem LoopAt.visit {loop : PassLoop} {first pass visited : PassState ReaderId} {version : Nat}
    {counter : Int} {now : Nat} (at_ : LoopAt start loop first pass)
    (loaded : LoadedOf start (pass.lists.walked loop)[pass.index]? (some version) (some counter))
    (visits : visitNext loop start.version pass ⟨⟨version, counter⟩, now⟩ = some visited) :
    LoopAt start loop first visited := by
  obtain ⟨samples, before, ran, sampled, walked⟩ := at_
  obtain ⟨ti, found, _⟩ := visitNext_cases visits
  obtain ⟨sameVersion, sameCounter⟩ := loaded ti found
  obtain rfl := sameVersion version rfl
  obtain rfl := sameCounter counter rfl
  refine ⟨samples ++ [⟨start.lns ti, now⟩], before ++ [ti],
    run_concat_eq_some_iff.mpr ⟨pass, ran, visits⟩, ?_, ?_⟩
  · simp [sampled]
  · obtain ⟨inside, here⟩ := List.getElem?_eq_some_iff.mp found
    rw [drop_of_visitNext visits, walked, List.drop_eq_getElem_cons inside, here]
    simp

theorem LoopAt.ended {loop : PassLoop} {first pass : PassState ReaderId}
    (at_ : LoopAt start loop first pass)
    (all : (pass.lists.walked loop).length ≤ pass.index) :
    ∃ samples, visitAll loop start.version samples first = some pass ∧
      samples.map Sample.lns = (first.lists.walked loop).map start.lns := by
  obtain ⟨samples, visited, ran, sampled, walked⟩ := at_
  rw [List.drop_eq_nil_of_le all, List.append_nil] at walked
  exact ⟨samples, visitAll_eq_some_iff.mpr ⟨ran, all⟩, walked ▸ sampled⟩

theorem RoundPass.step {owner : PassOwner} {pass pass' : PassPc} {action : PassAction}
    (at_ : RoundPass start state.lists pass) (version : state.version = start.version)
    (lns : state.lns = start.lns) (move : PassMove state owner pass action next pass') :
    RoundPass start next.lists pass' := by
  cases move with
  | loadVersion rbt => exact ⟨version, at_⟩
  | lockThreads currentVersion rbt free =>
      obtain ⟨current, same⟩ := at_
      refine ⟨current, by simp [LoadedOf], ?_⟩
      change LoopAt start .threads (firstPassState start) ⟨state.lists, 0, rbt⟩
      rw [same]
      exact LoopAt.begin rfl
  | loadLnsVersion loop currentVersion index counter rbt ti found =>
      cases loop with
      | threads => exact ⟨at_.1, at_.2.1.loadVersion found (by rw [lns]), at_.2.2⟩
      | hungThreads => exact ⟨at_.1, at_.2.1.loadVersion found (by rw [lns]), at_.2.2⟩
  | loadLnsCounter loop currentVersion index version rbt ti found =>
      cases loop with
      | threads => exact ⟨at_.1, at_.2.1.loadCounter found (by rw [lns]), at_.2.2⟩
      | hungThreads => exact ⟨at_.1, at_.2.1.loadCounter found (by rw [lns]), at_.2.2⟩
  | visit loop currentVersion index version counter rbt now visited visits =>
      cases loop with
      | threads =>
          obtain ⟨rfl, loaded, at_⟩ := at_
          exact ⟨rfl, by simp [LoadedOf], at_.visit loaded visits⟩
      | hungThreads =>
          obtain ⟨rfl, loaded, samples, middle, walked, sampled, at_⟩ := at_
          exact ⟨rfl, by simp [LoadedOf], samples, middle, walked, sampled,
            at_.visit loaded visits⟩
  | nextLoop currentVersion index rbt all =>
      obtain ⟨current, _, at_⟩ := at_
      obtain ⟨samples, walked, sampled⟩ := at_.ended all
      exact ⟨current, by simp [LoadedOf], samples, _, walked, sampled, LoopAt.begin rfl⟩
  | unlockThreads currentVersion index rbt merged room all optimized =>
      obtain ⟨rfl, _, samples, middle, walked, sampled, at_⟩ := at_
      obtain ⟨hungSamples, walked', sampled'⟩ := at_.ended all
      obtain ⟨moved, inside, hung⟩ := hungThreads_of_run (visitAll_eq_some_iff.mp walked).1
      refine ⟨samples, hungSamples, ⟨sampled, moved, inside, ?_⟩, ?_⟩
      · rw [sampled']
        exact congrArg (List.map start.lns) hung
      · simp only [PassInput.run, lrcuGetSynchronized]
        rw [show visitAll .threads start.version samples
          ⟨start.lists, 0, rangeBintreeInit start.ranges lrcuThreadsMax⟩ = some middle from walked,
          Option.bind_some, walked', Option.bind_some, optimized]
        rfl

/-! ## The round -/

/-- A step of the worker or of its pass, before it has assigned
`ns->processed_version`. -/
def OfRound (state : NamespaceState) (action : NamespaceAction) : Prop :=
  (action = .worker ∨ ∃ own, action = .pass .worker own) ∧ state.worker ≠ .writeBarrier

/-- The worker has a callback on one of its lists when it tests them. -/
def NeedsPass (start : NamespaceState) : Prop :=
  (start.workerList.isEmpty && start.workerHlist.isEmpty) = false

/-- The pass of the round has left the given set. -/
def PassLeft (start : NamespaceState) (rbt : LrcuRangetree) : Prop :=
  NeedsPass start ∧ ∃ samples hungSamples lists, UndisturbedSamples start samples hungSamples ∧
    PassInput.run ⟨start.version, samples, hungSamples, start.lists⟩ start.ranges =
      some (lists, rbt)

/-- The callbacks of a list that the set holds back. -/
def heldBack (rbt : LrcuRangetree) (callbacks : List (Callback ObjId)) :
    List (Callback ObjId) :=
  callbacks.filter fun callback => lrcuRangetreeFind rbt callback.version

/-- The walks have only taken callbacks that the set does not hold back. -/
structure Walks (start state : NamespaceState) (rbt : LrcuRangetree) : Prop where
  left : PassLeft start rbt
  list : heldBack rbt state.workerList = heldBack rbt start.workerList
  hlist : heldBack rbt state.workerHlist = heldBack rbt start.workerHlist

/-- What the round computes. -/
def RoundComputes (start final : NamespaceState) : Prop :=
  ∃ samples hungSamples round, UndisturbedSamples start samples hungSamples ∧
    lrcuWorkerRound ⟨start.version, samples, hungSamples, start.lists⟩ start.version
        start.workerList start.workerHlist start.ranges = some (some round) ∧
      round.workerList = final.workerList ∧ round.workerHlist = final.workerHlist ∧
        round.processedVersion = final.processedVersion ∧ round.ranges = final.ranges

/-- Where the worker is, when its round started in the given state. -/
def RoundPc (start state : NamespaceState) : Prop :=
  match state.worker with
  | .testWorkerLists =>
      state.lists = start.lists ∧ state.workerList = start.workerList ∧
        state.workerHlist = start.workerHlist ∧ state.ranges = start.ranges
  | .passing pass =>
      NeedsPass start ∧ RoundPass start state.lists pass ∧
        state.workerList = start.workerList ∧ state.workerHlist = start.workerHlist
  | .walkList index rbt =>
      Walks start state rbt ∧
        ∀ callback ∈ state.workerList.take index, lrcuRangetreeFind rbt callback.version = true
  | .walkHlist index rbt =>
      Walks start state rbt ∧ heldBack rbt state.workerList = state.workerList ∧
        ∀ callback ∈ state.workerHlist.take index, lrcuRangetreeFind rbt callback.version = true
  | .storeMin rbt =>
      Walks start state rbt ∧ heldBack rbt state.workerList = state.workerList ∧
        heldBack rbt state.workerHlist = state.workerHlist
  | .testProcessed =>
      ∃ rbt, PassLeft start rbt ∧ state.workerList = heldBack rbt start.workerList ∧
        state.workerHlist = heldBack rbt start.workerHlist ∧
          lrcuRangetreeGetmin rbt = some state.processedVersion ∧ state.ranges = rbt.r
  | .storeNext version =>
      version = start.version ∧ ∃ rbt, PassLeft start rbt ∧
        state.workerList = heldBack rbt start.workerList ∧
          state.workerHlist = heldBack rbt start.workerHlist ∧
            lrcuRangetreeGetmin rbt = some 0 ∧ state.ranges = rbt.r
  | .writeBarrier =>
      start.workerList = [] ∧ start.workerHlist = [] ∧ state.workerList = [] ∧
        state.workerHlist = [] ∨ RoundComputes start state
  | _ => False

structure RoundAt (start state : NamespaceState) : Prop where
  version : state.version = start.version
  lns : state.lns = start.lns
  pc : RoundPc start state

theorem roundComputes_of_left {rbt : LrcuRangetree} {minv : Nat} {final : NamespaceState}
    (left : PassLeft start rbt) (list : final.workerList = heldBack rbt start.workerList)
    (hlist : final.workerHlist = heldBack rbt start.workerHlist)
    (getmin : lrcuRangetreeGetmin rbt = some minv)
    (processed : final.processedVersion = if minv = 0 then u64Succ start.version else minv)
    (ranges : final.ranges = rbt.r) : RoundComputes start final := by
  obtain ⟨needed, samples, hungSamples, lists, undisturbed, ran⟩ := left
  let round : WorkerRound ObjId :=
    { destroyed := (workerListLoop rbt start.workerList).1
      workerList := final.workerList
      destroyedHeads := (workerListLoop rbt start.workerHlist).1
      workerHlist := final.workerHlist
      processedVersion := final.processedVersion
      ranges := final.ranges }
  refine ⟨samples, hungSamples, round, undisturbed, ?_, rfl, rfl, rfl, rfl⟩
  have nonempty : ¬ (start.workerList.isEmpty && start.workerHlist.isEmpty) = true := by
    rw [needed]
    simp
  simp only [lrcuWorkerRound, if_neg nonempty, ran, Option.bind_some, getmin, Option.map_some,
    workerListLoop_eq, round, list, hlist, processed, ranges, heldBack]

/-- An element that the set does not hold back is none of those that it does. -/
theorem heldBack_eraseIdx {rbt : LrcuRangetree} {callbacks : List (Callback ObjId)} {index : Nat}
    {callback : Callback ObjId} (found : callbacks[index]? = some callback)
    (free : lrcuRangetreeFind rbt callback.version = false) :
    heldBack rbt (callbacks.eraseIdx index) = heldBack rbt callbacks := by
  obtain ⟨inside, rfl⟩ := List.getElem?_eq_some_iff.mp found
  have split : callbacks = callbacks.take index ++ callbacks[index] :: callbacks.drop (index + 1) :=
    by simp
  rw [List.eraseIdx_eq_take_drop_succ]
  conv_rhs => rw [split]
  simp only [heldBack, List.filter_append, List.filter_cons, free, Bool.false_eq_true, if_false]

theorem heldBack_of_take {rbt : LrcuRangetree} {callbacks : List (Callback ObjId)} {index : Nat}
    (held : ∀ callback ∈ callbacks.take index, lrcuRangetreeFind rbt callback.version = true)
    (ended : callbacks[index]? = none) : heldBack rbt callbacks = callbacks :=
  List.filter_eq_self.mpr (forall_of_take ended held)

theorem RoundAt.worker_step (round : RoundAt start state) (before : state.worker ≠ .writeBarrier)
    (stepped : workerStep state = some next) : RoundAt start next := by
  obtain ⟨version, lns, at_⟩ := round
  unfold RoundPc at at_
  cases pc : state.worker with
  | testWorkerLists =>
      simp only [workerStep, pc] at stepped
      rw [pc] at at_
      obtain ⟨lists, list, hlist, ranges⟩ := at_
      split_ifs at stepped with empty
      · obtain rfl := Option.some.inj stepped
        simp only [Bool.and_eq_true, List.isEmpty_iff] at empty
        exact ⟨version, lns, Or.inl ⟨list ▸ empty.1, hlist ▸ empty.2, empty⟩⟩
      · obtain rfl := Option.some.inj stepped
        refine ⟨version, lns, ?_, ?_, list, hlist⟩
        · rw [NeedsPass, ← list, ← hlist]
          simpa using empty
        · change (⟨state.lists, 0, rangeBintreeInit state.ranges lrcuThreadsMax⟩ :
            PassState ReaderId) = firstPassState start
          rw [lists, ranges, firstPassState]
  | passing pass =>
      rw [pc] at at_
      obtain ⟨needed, at_, list, hlist⟩ := at_
      cases pass with
      | finished rbt =>
          simp only [workerStep, pc, Option.some.injEq] at stepped
          subst stepped
          obtain ⟨samples, hungSamples, undisturbed, ran⟩ := at_
          exact ⟨version, lns, ⟨⟨needed, samples, hungSamples, _, undisturbed, ran⟩,
            by rw [list], by rw [hlist]⟩, by simp⟩
      | loadVersion | lockThreads | visiting => simp [workerStep, pc] at stepped
  | walkList index rbt =>
      rw [pc] at at_
      obtain ⟨walks, held⟩ := at_
      simp only [workerStep, pc] at stepped
      split at stepped
      next ended =>
        obtain rfl := Option.some.inj stepped
        exact ⟨version, lns, ⟨walks.left, walks.list, walks.hlist⟩, heldBack_of_take held ended,
          by simp⟩
      next callback found =>
        split_ifs at stepped with stays
        · obtain rfl := Option.some.inj stepped
          exact ⟨version, lns, ⟨walks.left, walks.list, walks.hlist⟩,
            forall_take_succ found stays held⟩
        · obtain rfl := Option.some.inj stepped
          have free : lrcuRangetreeFind rbt callback.version = false := by simpa using stays
          refine ⟨version, lns, ?_⟩
          simp only [RoundPc, NamespaceState.setStage, pc]
          refine ⟨⟨walks.left, (heldBack_eraseIdx found free).trans walks.list, walks.hlist⟩, ?_⟩
          exact forall_take_eraseIdx held
  | walkHlist index rbt =>
      rw [pc] at at_
      obtain ⟨walks, listHeld, held⟩ := at_
      simp only [workerStep, pc] at stepped
      split at stepped
      next ended =>
        obtain rfl := Option.some.inj stepped
        exact ⟨version, lns, ⟨walks.left, walks.list, walks.hlist⟩, listHeld,
          heldBack_of_take held ended⟩
      next callback found =>
        split_ifs at stepped with stays
        · obtain rfl := Option.some.inj stepped
          exact ⟨version, lns, ⟨walks.left, walks.list, walks.hlist⟩, listHeld,
            forall_take_succ found stays held⟩
        · obtain rfl := Option.some.inj stepped
          have free : lrcuRangetreeFind rbt callback.version = false := by simpa using stays
          refine ⟨version, lns, ?_⟩
          simp only [RoundPc, NamespaceState.setStage, pc]
          refine ⟨⟨walks.left, walks.list, (heldBack_eraseIdx found free).trans walks.hlist⟩,
            listHeld, ?_⟩
          exact forall_take_eraseIdx held
  | storeMin rbt =>
      rw [pc] at at_
      obtain ⟨walks, listHeld, hlistHeld⟩ := at_
      simp only [workerStep, pc] at stepped
      obtain ⟨minv, getmin, rfl⟩ := Option.map_eq_some_iff.mp stepped
      exact ⟨version, lns, rbt, walks.left, listHeld.symm.trans walks.list,
        hlistHeld.symm.trans walks.hlist, getmin, rfl⟩
  | testProcessed =>
      rw [pc] at at_
      obtain ⟨rbt, left, list, hlist, getmin, ranges⟩ := at_
      simp only [workerStep, pc] at stepped
      split_ifs at stepped with zero
      · obtain rfl := Option.some.inj stepped
        exact ⟨version, lns, version, rbt, left, list, hlist, zero ▸ getmin, ranges⟩
      · obtain rfl := Option.some.inj stepped
        exact ⟨version, lns, Or.inr (roundComputes_of_left left list hlist getmin
          (if_neg zero).symm ranges)⟩
  | storeNext version' =>
      rw [pc] at at_
      obtain ⟨rfl, rbt, left, list, hlist, getmin, ranges⟩ := at_
      simp only [workerStep, pc] at stepped
      obtain rfl := Option.some.inj stepped
      exact ⟨version, lns, Or.inr (roundComputes_of_left left list hlist getmin rfl ranges)⟩
  | writeBarrier => exact absurd pc before
  | testFreeList | spliceFreeList | testFreeHlist | spliceFreeHlist | testEmpty | storeVersion =>
      rw [pc] at at_
      exact at_.elim

theorem RoundAt.step {action : NamespaceAction} (round : RoundAt start state)
    (own : OfRound state action) (stepped : namespaceStep state action = some next) :
    RoundAt start next := by
  obtain ⟨rfl | ⟨own, rfl⟩, before⟩ := own
  · exact round.worker_step before stepped
  · obtain ⟨pass, middle, pass', found, move, rfl⟩ := passAction_cases stepped
    obtain ⟨version, lns, at_⟩ := round
    rw [RoundPc, passOf_worker.mp found] at at_
    obtain ⟨needed, at_, list, hlist⟩ := at_
    have moved := at_.step version lns move
    obtain ⟨lists, lock, rfl⟩ := move.shape
    exact ⟨version, lns, needed, moved, list, hlist⟩

/-- From the test of the two lists until `ns->processed_version` is assigned,
the worker that nobody disturbs computes what the function does. -/
theorem lrcuWorkerRound_of_undisturbed {final : NamespaceState} {actions : List NamespaceAction}
    (tests : start.worker = .testWorkerLists) (needed : NeedsPass start)
    (undisturbed : Meets namespaceStep OfRound start actions)
    (ran : run namespaceStep start actions = some final)
    (assigned : final.worker = .writeBarrier) : RoundComputes start final := by
  have begins : RoundAt start start := by
    refine ⟨rfl, rfl, ?_⟩
    rw [RoundPc, tests]
    exact ⟨rfl, rfl, rfl, rfl⟩
  have ends : RoundAt start final := by
    apply run_preserves_of_meets (RoundAt start) _ undisturbed begins ran
    exact fun state action next own round stepped => round.step own stepped
  have computes := ends.pc
  rw [RoundPc, assigned] at computes
  apply computes.resolve_left
  rintro ⟨list, hlist, _⟩
  simp [NeedsPass, list, hlist] at needed

end LightRcu
