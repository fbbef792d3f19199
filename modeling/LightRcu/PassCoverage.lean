import LightRcu.NamespacePasses

/-!
# A pass covers the readers that stay

A thread which is in a read section when a pass begins, and does not leave it
until the pass has ended, has been visited, and the pass holds back every
version from its own up to the one that the pass loaded.  This needs that the
thread is not on `hung_threads`, where the ranges end earlier.
-/

namespace LightRcu

open ClosedInterval Execution

variable {state next : NamespaceState}

/-! ## No thread is taken for hung -/

/-- The time that an action asks for, if it is a visit. -/
def NamespaceAction.now : NamespaceAction → Nat
  | .pass _ (.visit now) => now
  | _ => 0

theorem hangTestFails_of_early {action : NamespaceAction}
    (early : action.now < lrcuHangTimeout) : HangTestFails state action := by
  rintro owner now _ _ _ _ _ ti rfl _ _
  have soon : now < lrcuHangTimeout := early
  simp [hangTest, Nat.lt_add_left _ soon]

/-- What a run keeps up in which no hang test succeeds. -/
structure NoneHung (state : NamespaceState) : Prop where
  hungThreads : state.lists.hungThreads = []
  registered : ∀ i, (state.lns i).counter ≠ 0 → i ∈ state.lists.threads

namespace NoneHung

theorem init (workerTi : ReaderId) (ranges : Nat → LrcuRange) :
    NoneHung (namespaceInit workerTi ranges) where
  hungThreads := rfl
  registered _ counted := absurd rfl counted

private theorem visitThread_stays (currentVersion : Nat) {info : LrcuThreadInfo}
    {sample : Sample} (fails : hangTest info sample = false) :
    (visitThread currentVersion info sample).moves = false := by
  unfold visitThread
  split
  · exact fails
  · rfl

theorem visit_advances {owner : PassOwner} {currentVersion index version : Nat}
    {counter : Int} {rbt : LrcuRangetree} {now : Nat} {visited : PassState ReaderId}
    (fails : HangTestFails state (.pass owner (.visit now)))
    (found : state.passOf owner =
      some (.visiting .threads currentVersion index (some version) (some counter) rbt))
    (visits : visitNext .threads currentVersion ⟨state.lists, index, rbt⟩
      ⟨⟨version, counter⟩, now⟩ = some visited) :
    visited.index = index + 1 ∧ visited.lists.threads = state.lists.threads ∧
      visited.lists.hungThreads = state.lists.hungThreads := by
  obtain ⟨ti, at_index, _, visit⟩ := visitNext_cases visits
  have stays := visitThread_stays currentVersion
    (fails owner now currentVersion index version counter rbt ti rfl found at_index)
  rcases visit with ⟨moves, _⟩ | ⟨_, advanced, lists⟩
  · simp [PassLoop.visit, stays] at moves
  · rw [lists]
    exact ⟨advanced, rfl, rfl⟩

private theorem own_step {i : ReaderId} {action : ReaderAction} (quiet : NoneHung state)
    (move : ReaderMove state i action next) : NoneHung next := by
  have of_lns : ∀ {lns : LrcuLocalNamespace},
      (lns.counter ≠ 0 → i ∈ state.lists.threads) →
        ∀ j, (Function.update state.lns i lns j).counter ≠ 0 → j ∈ state.lists.threads := by
    intro lns own j counted
    by_cases same : j = i
    · subst same
      exact own (by simpa using counted)
    · exact quiet.registered j (by simpa [Function.update_of_ne same] using counted)
  cases move with
  | lockCount idle registered =>
      refine ⟨quiet.hungThreads, of_lns fun _ => ?_⟩
      simpa [quiet.hungThreads] using registered
  | lockStore version storing =>
      exact ⟨quiet.hungThreads, of_lns fun counted => quiet.registered i counted⟩
  | unlockLast idle last =>
      exact ⟨quiet.hungThreads, of_lns fun _ => quiet.registered i (by omega)⟩
  | unlockNested idle nested left =>
      refine ⟨quiet.hungThreads, of_lns fun _ => quiet.registered i fun zero => ?_⟩
      rw [zero] at left
      exact absurd left (by decide)
  | lockFirst | lockNested | dereference | dereferenceNull => exact ⟨quiet.1, quiet.2⟩
  | setNs free =>
      exact ⟨quiet.hungThreads, fun j counted =>
        List.mem_cons_of_mem i (quiet.registered j counted)⟩
  | delNs free left =>
      refine ⟨quiet.hungThreads, fun j counted => ?_⟩
      have other : j ≠ i := fun same => counted (same ▸ left)
      exact (List.mem_erase_of_ne other).mpr (quiet.registered j counted)

/-- No step other than those of the threads themselves changes the lists. -/
theorem lists_of_step {action : NamespaceAction} (quiet : NoneHung state)
    (fails : HangTestFails state action) (stepped : namespaceStep state action = some next)
    (others : ∀ i own, action ≠ .reader i own) :
    next.lists.threads = state.lists.threads ∧ next.lists.hungThreads = [] := by
  rcases LightRcu.lists_of_step stepped with
    ⟨_, hung, threads⟩ | ⟨owner, loop, currentVersion, index, version, counter, rbt, now, visited,
      rfl, found, visits, lists⟩
  · exact ⟨threads others, hung.trans quiet.hungThreads⟩
  · rw [lists]
    cases loop with
    | threads =>
        obtain ⟨_, threads, hung⟩ := visit_advances fails found visits
        exact ⟨threads, hung.trans quiet.hungThreads⟩
    | hungThreads =>
        obtain ⟨ti, here, _⟩ := visitNext_cases visits
        simp [ThreadLists.walked, quiet.hungThreads] at here

theorem step {action : NamespaceAction} (quiet : NoneHung state)
    (fails : HangTestFails state action) (stepped : namespaceStep state action = some next) :
    NoneHung next := by
  by_cases reader : ∃ i own, action = .reader i own
  · obtain ⟨i, own, rfl⟩ := reader
    exact quiet.own_step (readerMove_of_step stepped)
  · have others : ∀ i own, action ≠ .reader i own := fun i own same => reader ⟨i, own, same⟩
    obtain ⟨threads, hung⟩ := quiet.lists_of_step fails stepped others
    refine ⟨hung, fun i counted => ?_⟩
    rw [(reader_eq_of_step stepped (others i)).1] at counted
    rw [threads]
    exact quiet.registered i counted

end NoneHung

/-! ## Runs without wraps and hangs -/

/-- No hang test succeeds in the step, and no version or nesting depth wraps. -/
structure Quiet (state : NamespaceState) (action : NamespaceAction) : Prop where
  hang : HangTestFails state action
  version : VersionFits state action
  depth : DepthFits state action

/-- What quiet steps keep up. -/
structure QuietOk (state : NamespaceState) : Prop where
  ok : NamespaceOk state
  noneHung : NoneHung state
  versions : VersionsOk state
  depths : DepthsOk state

namespace QuietOk

theorem init (workerTi : ReaderId) (ranges : Nat → LrcuRange) :
    QuietOk (namespaceInit workerTi ranges) where
  ok := .init workerTi ranges
  noneHung := .init workerTi ranges
  versions := .init workerTi ranges
  depths := .init workerTi ranges

theorem step {action : NamespaceAction} (holds : QuietOk state) (quiet : Quiet state action)
    (stepped : namespaceStep state action = some next) : QuietOk next where
  ok := holds.ok.step stepped
  noneHung := holds.noneHung.step quiet.hang stepped
  versions := holds.versions.step quiet.version stepped
  depths := holds.depths.step quiet.depth stepped

end QuietOk

/-- So far the version and the nesting depths have only been counted up to a
bound. -/
structure CountedTo (bound : Nat) (state : NamespaceState) : Prop where
  version : state.version ≤ bound
  depth : ∀ i, 0 ≤ (state.lns i).counter ∧ (state.lns i).counter ≤ bound

namespace CountedTo

variable {bound : Nat}

theorem init (workerTi : ReaderId) (ranges : Nat → LrcuRange) :
    CountedTo 1 (namespaceInit workerTi ranges) :=
  ⟨le_rfl, fun _ => by simp [namespaceInit]⟩

theorem mono {bound' : Nat} (counted : CountedTo bound state) (le : bound ≤ bound') :
    CountedTo bound' state :=
  ⟨counted.version.trans le, fun i => ⟨(counted.depth i).1, by
    have := (counted.depth i).2
    omega⟩⟩

theorem fits (counted : CountedTo bound state) (small : bound < 2 ^ 31 - 1)
    (action : NamespaceAction) : VersionFits state action ∧ DepthFits state action := by
  refine ⟨fun _ => ?_, fun i _ => ?_⟩
  · have := counted.version
    omega
  · have := (counted.depth i).2
    omega

theorem step {action : NamespaceAction} (counted : CountedTo bound state)
    (small : bound < 2 ^ 31 - 1) (stepped : namespaceStep state action = some next) :
    CountedTo (bound + 1) next := by
  obtain ⟨version, depth⟩ := counted.fits small action
  constructor
  · exact (version_le_succ_of_step stepped).trans (Nat.add_le_add_right counted.version 1)
  · intro i
    have depths : DepthsOk state := fun i => ⟨(counted.depth i).1, by
      have := (counted.depth i).2
      omega⟩
    have before := counted.depth i
    push_cast
    rcases depths.counter_of_step depth stepped i with ⟨shallower, left⟩ | ⟨deeper, _⟩ <;> omega

end CountedTo

/-- In a run that is short and early, nothing wraps and nobody is taken for
hung. -/
theorem quiet_of_early {bound : Nat} {state : NamespaceState} {actions : List NamespaceAction}
    (counted : CountedTo bound state) (short : bound + actions.length < 2 ^ 31)
    (early : ∀ action ∈ actions, action.now < lrcuHangTimeout) :
    Meets namespaceStep Quiet state actions := by
  induction actions generalizing bound state with
  | nil => trivial
  | cons action rest ih =>
      rw [List.length_cons] at short
      obtain ⟨version, depth⟩ := counted.fits (by omega) action
      refine ⟨⟨?_, version, depth⟩, fun next stepped => ?_⟩
      · exact hangTestFails_of_early (early action List.mem_cons_self)
      · exact ih (counted.step (by omega) stepped) (by omega) fun later member =>
          early later (List.mem_cons_of_mem action member)

/-- Bumps take a namespace to any version. -/
theorem run_bumps (state : NamespaceState) (count : Nat) {version : Nat}
    (reaches : state.version + count = version) (room : version < 2 ^ 64) :
    run namespaceStep state (List.replicate count (.writer .lrcuWriteBarrierNs)) =
      some { state with version := version } := by
  rw [← reaches, ← iterate_u64Succ (reaches ▸ room)]
  clear reaches room
  induction count generalizing state with
  | zero => rfl
  | succ count ih =>
      rw [List.replicate_succ, run, Function.iterate_succ_apply]
      exact ih { state with version := u64Succ state.version }

/-- One pass over a list of threads, at the time at which the clock starts. -/
def passActions (owner : PassOwner) (threads : Nat) : List NamespaceAction :=
  [.pass owner .loadVersion, .pass owner .lockThreads] ++
    (List.replicate threads [.pass owner .loadLnsVersion, .pass owner .loadLnsCounter,
      .pass owner (.visit 0)]).flatten ++
    [.pass owner .nextLoop, .pass owner .unlockThreads]

/-! ## What a pass covers -/

/-- The pass holds back the version on account of the thread: it has not come
to the thread yet, or it has sampled an earlier version of it in a read
section, or its tree covers the version. -/
def PassCovers (threads : List ReaderId) (i : ReaderId) (version : Nat) : PassPc → Prop
  | .loadVersion _ => True
  | .lockThreads currentVersion _ => version ≤ currentVersion
  | .visiting .threads currentVersion index sampled counter rbt =>
      version ≤ currentVersion ∧
        (i ∈ threads.drop (index + 1) ∨
          threads[index]? = some i ∧ (∀ loaded ∈ sampled, loaded ≤ version) ∧
            (∀ count ∈ counter, count ≠ 0) ∨
          Covered rbt.entries version)
  | .visiting .hungThreads currentVersion _ _ _ rbt =>
      version ≤ currentVersion ∧ Covered rbt.entries version
  | .finished rbt => lrcuRangetreeFind rbt version = true

namespace PassCovers

variable {i : ReaderId} {version : Nat}

private theorem of_drop {threads : List ReaderId} {currentVersion index : Nat}
    {rbt : LrcuRangetree} (le : version ≤ currentVersion)
    (reason : i ∈ threads.drop index ∨ Covered rbt.entries version) :
    PassCovers threads i version (.visiting .threads currentVersion index none none rbt) := by
  refine ⟨le, ?_⟩
  rcases reason with later | covered
  · rcases mem_drop_iff.mp later with here | later
    · exact Or.inr (Or.inl ⟨here, by simp, by simp⟩)
    · exact Or.inl later
  · exact Or.inr (Or.inr covered)

/-- Every move of a pass keeps a thread covered that stays in a read section
entered at the version or before. -/
theorem step {owner : PassOwner} {pass pass' : PassPc} {action : PassAction}
    (covers : PassCovers state.lists.threads i version pass) (quiet : NoneHung state)
    (passOk : PassOk pass) (fails : HangTestFails state (.pass owner action))
    (found : state.passOf owner = some pass)
    (move : PassMove state owner pass action next pass')
    (counted : (state.lns i).counter ≠ 0) (entered : (state.lns i).version ≤ version)
    (bounded : version ≤ state.version) :
    PassCovers next.lists.threads i version pass' := by
  cases move with
  | loadVersion rbt => exact bounded
  | lockThreads currentVersion rbt free =>
      exact of_drop covers (Or.inl (by simpa using quiet.registered i counted))
  | loadLnsVersion loop currentVersion index counter rbt ti at_index =>
      cases loop with
      | hungThreads => exact covers
      | threads =>
          refine ⟨covers.1, covers.2.imp_right (Or.imp_left ?_)⟩
          rintro ⟨its, _, active⟩
          refine ⟨its, fun loaded same => ?_, active⟩
          obtain rfl := Option.some.inj (its.symm.trans at_index)
          exact Option.some.inj same ▸ entered
  | loadLnsCounter loop currentVersion index sampled rbt ti at_index =>
      cases loop with
      | hungThreads => exact covers
      | threads =>
          refine ⟨covers.1, covers.2.imp_right (Or.imp_left ?_)⟩
          rintro ⟨its, loaded, _⟩
          refine ⟨its, loaded, fun count same => ?_⟩
          obtain rfl := Option.some.inj (its.symm.trans at_index)
          exact Option.some.inj same ▸ counted
  | visit loop currentVersion index sampled counter rbt now visited visits =>
      obtain ⟨_, _, covered⟩ := visitNext_spec passOk.1 passOk.2 visits
      cases loop with
      | hungThreads => exact ⟨covers.1, covered version covers.1 (Or.inl covers.2)⟩
      | threads =>
          obtain ⟨le, reason⟩ := covers
          obtain ⟨advanced, threads, _⟩ := NoneHung.visit_advances fails found visits
          rw [advanced]
          refine of_drop le ?_
          rw [show visited.lists.threads = state.lists.threads from threads]
          rcases reason with later | ⟨_, loaded, active⟩ | before
          · exact Or.inl later
          · exact Or.inr (covered version le (Or.inr ⟨active counter rfl, rfl, loaded sampled rfl⟩))
          · exact Or.inr (covered version le (Or.inl before))
  | nextLoop currentVersion index rbt all =>
      obtain ⟨le, later | ⟨its, _⟩ | covered⟩ := covers
      · rw [List.drop_eq_nil_of_le (by omega)] at later
        exact absurd later List.not_mem_nil
      · rw [List.getElem?_eq_none all] at its
        simp at its
      · exact ⟨le, covered⟩
  | unlockThreads currentVersion index rbt merged room all optimized =>
      obtain ⟨le, covered⟩ := covers
      obtain ⟨_, _, _, separated, coarsens⟩ :=
        optimize_merge_spec passOk.1 optimized currentVersion
      have stays := coarsens.covers passOk.2 version le covered
      have nonempty : 0 < merged.len := by
        obtain ⟨range, member, _⟩ := stays
        rw [← entries_length]
        exact List.length_pos_of_mem member
      exact (lrcuRangetreeFind_iff_covered separated nonempty version).mpr stays

private theorem of_threads {threads threads' : List ReaderId} {pass : PassPc}
    (covers : PassCovers threads i version pass) (same : pass.Visiting → threads' = threads) :
    PassCovers threads' i version pass := by
  cases pass with
  | loadVersion | lockThreads | finished => exact covers
  | visiting =>
      rw [same trivial]
      exact covers

/-- What holds of the pass of an owner keeps holding, also when the owner begins
a new one. -/
theorem of_step {action : NamespaceAction} {owner : PassOwner} {pass' : PassPc}
    (covers : ∀ pass, state.passOf owner = some pass →
      PassCovers state.lists.threads i version pass)
    (ok : NamespaceOk state) (quiet : NoneHung state) (fails : HangTestFails state action)
    (stepped : namespaceStep state action = some next) (found : next.passOf owner = some pass')
    (counted : (state.lns i).counter ≠ 0) (entered : (state.lns i).version ≤ version)
    (bounded : version ≤ state.version) :
    PassCovers next.lists.threads i version pass' := by
  rcases passOf_of_step stepped found with
    ⟨own, pass, middle, rfl, before, move, rfl⟩ | ⟨before, others⟩ | ⟨ranges, rfl⟩
  · have moved := (covers pass before).step quiet (ok.passes owner pass before) fails before
      move counted entered bounded
    obtain ⟨_, _, set⟩ := setPass_shape middle owner pass'
    rwa [set]
  · refine (covers pass' before).of_threads fun visiting => ?_
    rw [(ok.visiting_frame stepped before visiting others).1]
  · trivial

end PassCovers

end LightRcu
