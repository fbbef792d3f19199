import LightRcu.Reclamation

/-!
# The worker goes round

In an infinite run in which the worker of a handler takes steps again and again,
it comes to every namespace again and again, whatever goes on in the namespaces
and whatever its passes find there.  A callback is then destroyed in the end, if
the array that the namespaces share does not hold it back.
-/

namespace LightRcu

open Execution

variable {nsMax : Nat} {workerTi : ReaderId} {shared after : SharedWorkerState}
  {action : SharedWorkerAction}

/-- The worker takes the step, at the head of its loop or in a namespace. -/
def SharedWorkerAction.byWorker : SharedWorkerAction → Prop
  | .lrcuNsInit _ => False
  | .loadWorkerNs => True
  | .inNs _ action => action.byWorker = true

/-! ## Where the worker is -/

/-- What a step does to the place of the worker in its loop. -/
inductive RoundMove (nsMax : Nat) (shared after : SharedWorkerState) : SharedWorkerAction → Prop
  | skip (id : NsId) (pc : shared.worker = .loadNs id) (inside : id < nsMax)
      (absent : shared.ns id = none) (moved : after.worker = .loadNs (id + 1)) :
      RoundMove nsMax shared after .loadWorkerNs
  | visit (id : NsId) (pc : shared.worker = .loadNs id) (inside : id < nsMax)
      (ns : NamespaceState) (present : shared.ns id = some ns)
      (moved : after.worker = .visiting id)
      (handed : after.ns id = some { ns with ranges := shared.ranges }) :
      RoundMove nsMax shared after .loadWorkerNs
  | restart (id : NsId) (pc : shared.worker = .loadNs id) (outside : nsMax ≤ id)
      (moved : after.worker = .loadNs 0) : RoundMove nsMax shared after .loadWorkerNs
  | leave (id : NsId) (own : NamespaceAction) (pc : shared.worker = .visiting id)
      (ns changed : NamespaceState) (present : shared.ns id = some ns)
      (byWorker : own.byWorker = true) (stepped : namespaceStep ns own = some changed)
      (ended : changed.worker = .testFreeList) (moved : after.worker = .loadNs (id + 1)) :
      RoundMove nsMax shared after (.inNs id own)
  | stay (action : SharedWorkerAction) (elsewhere : action ≠ .loadWorkerNs)
      (goesOn : ∀ id own ns, action = .inNs id own → own.byWorker = true →
        after.ns id = some ns → ns.worker ≠ .testFreeList)
      (same : after.worker = shared.worker) : RoundMove nsMax shared after action

theorem roundMove_of_step
    (stepped : sharedWorkerStep nsMax workerTi shared action = some after) :
    RoundMove nsMax shared after action := by
  cases action with
  | lrcuNsInit id =>
      cases sharedWorkerMove_of_step stepped with
      | lrcuNsInit => exact .stay _ (by simp) (by simp) rfl
  | loadWorkerNs =>
      simp only [sharedWorkerStep] at stepped
      split at stepped
      next id pc =>
        split_ifs at stepped with inside
        · split at stepped
          next absent =>
            obtain rfl := Option.some.inj stepped
            exact .skip id pc inside absent rfl
          next ns present =>
            obtain rfl := Option.some.inj stepped
            exact .visit id pc inside ns present rfl (ns_setNs id _)
        · obtain rfl := Option.some.inj stepped
          exact .restart id pc (Nat.not_lt.mp inside) rfl
      next => simp at stepped
  | inNs id own =>
      cases sharedWorkerMove_of_step stepped with
      | inNs _ _ enabled ns changed present ownStep =>
          rcases worker_leaveIteration (shared.setNs id changed) id own changed with
            ⟨byWorker, ended, moved, _⟩ | ⟨goesOn, same, _⟩
          · have pc : shared.worker = .visiting id := by
              by_contra elsewhere
              simp [foreign_of_enables enabled elsewhere] at byWorker
            exact .leave id own pc ns changed present byWorker ownStep ended moved
          · refine .stay _ (by simp) ?_ same
            rintro id' own' ns' its byWorker found
            obtain ⟨rfl, rfl⟩ := SharedWorkerAction.inNs.inj its
            rw [ns_leaveIteration, ns_setNs, Option.some.injEq] at found
            exact found ▸ goesOn byWorker

/-- The worker is at a namespace that there is, or behind the last one. -/
structure RoundOk (nsMax : Nat) (shared : SharedWorkerState) : Prop where
  namespaces : ∀ id ns, shared.ns id = some ns → NamespaceOk ns
  turns : TurnsOk shared
  loads : ∀ id, shared.worker = .loadNs id → id ≤ nsMax
  visits : ∀ id, shared.worker = .visiting id → id < nsMax ∧ ∃ ns, shared.ns id = some ns

theorem NamespaceOk.setRanges {ns : NamespaceState} (ok : NamespaceOk ns)
    (ranges : Nat → LrcuRange) : NamespaceOk { ns with ranges := ranges } :=
  ⟨ok.readers, ok.passes, ok.locked⟩

namespace RoundOk

theorem init (nsMax : Nat) (ranges : Nat → LrcuRange) :
    RoundOk nsMax (sharedWorkerInit ranges) where
  namespaces id ns found := by simp [sharedWorkerInit] at found
  turns := turnsOk_init ranges
  loads id pc := by
    obtain rfl := SharedWorkerPc.loadNs.inj pc
    exact Nat.zero_le nsMax
  visits id pc := by simp [sharedWorkerInit] at pc

theorem step (ok : RoundOk nsMax shared)
    (stepped : sharedWorkerStep nsMax workerTi shared action = some after) :
    RoundOk nsMax after where
  namespaces := namespaces_preserve NamespaceOk (NamespaceOk.init workerTi)
    (fun _ ranges ok => ok.setRanges ranges)
    (fun _ _ _ _ ok stepped => ok.step stepped) (fun _ _ _ _ _ => trivial) ok.namespaces stepped
  turns := ok.turns.step stepped
  loads id pc := by
    cases roundMove_of_step stepped with
    | skip other _ inside _ moved =>
        obtain rfl := SharedWorkerPc.loadNs.inj (moved.symm.trans pc)
        exact inside
    | visit _ _ _ _ _ moved => simp [moved] at pc
    | restart _ _ _ moved =>
        obtain rfl := SharedWorkerPc.loadNs.inj (moved.symm.trans pc)
        exact Nat.zero_le nsMax
    | leave other _ visiting _ _ _ _ _ _ moved =>
        obtain rfl := SharedWorkerPc.loadNs.inj (moved.symm.trans pc)
        exact (ok.visits other visiting).1
    | stay _ _ _ same => exact ok.loads id (same.symm.trans pc)
  visits id pc := by
    cases roundMove_of_step stepped with
    | skip _ _ _ _ moved | restart _ _ _ moved | leave _ _ _ _ _ _ _ _ _ moved =>
        simp [moved] at pc
    | visit other _ inside _ _ moved handed =>
        obtain rfl := SharedWorkerPc.visiting.inj (moved.symm.trans pc)
        exact ⟨inside, _, handed⟩
    | stay _ _ _ same =>
        obtain ⟨inside, ns, present⟩ := ok.visits id (same.symm.trans pc)
        exact ⟨inside, installed_of_step stepped present⟩

end RoundOk

/-! ## The rounds -/

/-- How many turns of its loop the worker is away from a namespace. -/
def turnsTo (nsMax id place : Nat) : Nat :=
  if place ≤ id then id - place else nsMax + 1 + id - place

/-- What is left of the way to a namespace: the turns of the loop, and the rest
of the iteration in between. -/
def roundRank (nsMax id : Nat) (shared : SharedWorkerState) : Nat ×ₗ (Nat ×ₗ Nat) :=
  match shared.worker with
  | .loadNs place => toLex (turnsTo nsMax id place, toLex (18, 0))
  | .visiting place =>
      toLex (turnsTo nsMax id (place + 1) + 1,
        (shared.ns place).elim (toLex (0, 0)) workerRank)

theorem turnsTo_succ {id place : Nat} (apart : place ≠ id) (inside : place < nsMax) :
    turnsTo nsMax id (place + 1) + 1 = turnsTo nsMax id place := by
  unfold turnsTo
  split_ifs <;> omega

theorem turnsTo_zero {id place : Nat} (outside : nsMax ≤ place) (bound : place ≤ nsMax)
    (inside : id < nsMax) : turnsTo nsMax id 0 < turnsTo nsMax id place := by
  unfold turnsTo
  split_ifs <;> omega

/-- The worker takes its steps in the namespace that it visits. -/
theorem visiting_of_byWorker
    (stepped : sharedWorkerStep nsMax workerTi shared action = some after)
    (byWorker : action.byWorker) (elsewhere : action ≠ .loadWorkerNs) :
    ∃ id own, action = .inNs id own ∧ own.byWorker = true ∧ shared.worker = .visiting id := by
  cases sharedWorkerMove_of_step stepped with
  | lrcuNsInit => exact byWorker.elim
  | skipNs | visitNs | nextRound => exact absurd rfl elsewhere
  | inNs id own enabled ns changed present ownStep =>
      refine ⟨id, own, rfl, byWorker, ?_⟩
      by_contra other
      have foreign := foreign_of_enables enabled other
      exact absurd (byWorker.symm.trans foreign) (by simp)

/-- A step on the way leaves what is left of the iteration alone, or lowers it. -/
private theorem visitedRank_of_step {place : NsId} {ns : NamespaceState}
    (ok : RoundOk nsMax shared) (visiting : shared.worker = .visiting place)
    (present : shared.ns place = some ns) (elsewhere : action ≠ .loadWorkerNs)
    (goesOn : ∀ id own ns, action = .inNs id own → own.byWorker = true →
      after.ns id = some ns → ns.worker ≠ .testFreeList)
    (stepped : sharedWorkerStep nsMax workerTi shared action = some after) :
    ∃ ns', after.ns place = some ns' ∧ workerRank ns' ≤ workerRank ns ∧
      (action.byWorker → workerRank ns' < workerRank ns) := by
  obtain ⟨ns', present'⟩ := installed_of_step stepped present
  refine ⟨ns', present', ?_⟩
  cases nsMove_of_step stepped present' with
  | alone _ _ same others =>
      obtain rfl := Option.some.inj (present.symm.trans same)
      refine ⟨le_rfl, fun byWorker => ?_⟩
      obtain ⟨id, own, rfl, _, visited⟩ := visiting_of_byWorker stepped byWorker elsewhere
      obtain rfl := SharedWorkerPc.visiting.inj (visiting.symm.trans visited)
      exact absurd rfl (others own)
  | installed absent => simp [present] at absent
  | handed => exact absurd rfl elsewhere
  | own _ _ own same turn ownStep =>
      obtain rfl := Option.some.inj (present.symm.trans same)
      rcases workerRank_of_step (ok.namespaces place ns present) ownStep with
        ⟨rfl, ended⟩ | lower
      · exact absurd ended (goesOn place _ ns' rfl rfl present')
      · exact lower

/-- Every step of the worker brings it closer to the namespace. -/
theorem roundRank_of_step {id : Nat} (inside : id < nsMax) (ok : RoundOk nsMax shared)
    (away : shared.worker ≠ .loadNs id)
    (stepped : sharedWorkerStep nsMax workerTi shared action = some after) :
    after.worker = .loadNs id ∨
      roundRank nsMax id after ≤ roundRank nsMax id shared ∧
        (action.byWorker → roundRank nsMax id after < roundRank nsMax id shared) := by
  cases roundMove_of_step stepped with
  | skip place pc within absent moved =>
      by_cases arrived : place + 1 = id
      · exact Or.inl (moved.trans (by rw [arrived]))
      · right
        have apart : place ≠ id := fun same => away (same ▸ pc)
        have lower : roundRank nsMax id after < roundRank nsMax id shared := by
          simp only [roundRank, pc, moved]
          exact lex_lt (by rw [← turnsTo_succ apart within]; exact Nat.lt_succ_self _)
        exact ⟨lower.le, fun _ => lower⟩
  | visit place pc within ns present moved handed =>
      right
      have apart : place ≠ id := fun same => away (same ▸ pc)
      have lower : roundRank nsMax id after < roundRank nsMax id shared := by
        have between := ok.turns place ns present (by simp [pc])
        simp only [roundRank, pc, moved, handed, Option.elim_some, turnsTo_succ apart within,
          workerRank, between]
        exact Prod.Lex.toLex_lt_toLex.mpr (Or.inr ⟨rfl, lex_lt (by omega)⟩)
      exact ⟨lower.le, fun _ => lower⟩
  | restart place pc outside moved =>
      by_cases arrived : (0 : Nat) = id
      · exact Or.inl (moved.trans (by rw [← arrived]))
      · right
        have lower : roundRank nsMax id after < roundRank nsMax id shared := by
          simp only [roundRank, pc, moved]
          exact lex_lt (turnsTo_zero outside (ok.loads place pc) inside)
        exact ⟨lower.le, fun _ => lower⟩
  | leave place own pc ns changed present byWorker ownStep ended moved =>
      by_cases arrived : place + 1 = id
      · exact Or.inl (moved.trans (by rw [arrived]))
      · right
        have lower : roundRank nsMax id after < roundRank nsMax id shared := by
          simp only [roundRank, pc, moved]
          exact lex_lt (Nat.lt_succ_self _)
        exact ⟨lower.le, fun _ => lower⟩
  | stay _ elsewhere goesOn same =>
      right
      cases pc : shared.worker with
      | loadNs place =>
          have rank : roundRank nsMax id after = roundRank nsMax id shared := by
            simp only [roundRank, same, pc]
          refine ⟨rank.le, fun byWorker => ?_⟩
          obtain ⟨_, _, _, _, visited⟩ := visiting_of_byWorker stepped byWorker elsewhere
          simp [pc] at visited
      | visiting place =>
          obtain ⟨_, ns, present⟩ := ok.visits place pc
          obtain ⟨ns', present', notHigher, lower⟩ :=
            visitedRank_of_step ok pc present elsewhere goesOn stepped
          simp only [roundRank, same, pc, present, present', Option.elim_some]
          rw [Prod.Lex.toLex_le_toLex, Prod.Lex.toLex_lt_toLex]
          exact ⟨Or.inr ⟨rfl, notHigher⟩, fun byWorker => Or.inr ⟨rfl, lower byWorker⟩⟩

/-! ## Infinite runs -/

variable {infinite : InfiniteRun (sharedWorkerStep nsMax workerTi)} {ranges : Nat → LrcuRange}
  {front : List SharedWorkerAction} {id : NsId} {callback : Callback ObjId}

theorem roundOk_of_infiniteRun
    (reached : run (sharedWorkerStep nsMax workerTi) (sharedWorkerInit ranges) front =
      some (infinite.states 0)) (now : Nat) : RoundOk nsMax (infinite.states now) := by
  apply InfiniteRun.invariant_always (RoundOk nsMax) (fun _ _ _ ok stepped => ok.step stepped)
  exact run_preserves (RoundOk nsMax) (fun _ _ _ ok stepped => ok.step stepped)
    (.init nsMax ranges) reached

/-- A worker that takes steps again and again comes to the namespace. -/
private theorem comes_to
    (reached : run (sharedWorkerStep nsMax workerTi) (sharedWorkerInit ranges) front =
      some (infinite.states 0)) (inside : id < nsMax) {start : Nat}
    (recurs : infinite.RecursUntil start (fun _ => False) (·.byWorker)) :
    ∃ later, start ≤ later ∧ (infinite.states later).worker = .loadNs id := by
  by_cases here : (infinite.states start).worker = .loadNs id
  · exact ⟨start, le_rfl, here⟩
  have meets : infinite.MeetsFrom start fun _ _ => True := fun _ _ => trivial
  have wanted : infinite.RecursUntil start (fun shared => shared.worker = .loadNs id)
      (·.byWorker) := fun now le _ => recurs now le not_false
  apply InfiniteRun.reaches (fun shared => shared.worker = .loadNs id)
    (fun shared => RoundOk nsMax shared ∧ shared.worker ≠ .loadNs id) (roundRank nsMax id) _
    wanted meets ⟨roundOk_of_infiniteRun reached start, here⟩
  rintro shared action after - ⟨ok, away⟩ stepped
  by_cases arrived : after.worker = .loadNs id
  · exact Or.inl arrived
  · exact Or.inr ⟨⟨ok.step stepped, arrived⟩,
      (roundRank_of_step inside ok away stepped).resolve_left arrived⟩

/-- The worker comes to every namespace again and again. -/
theorem worker_comes_round
    (reached : run (sharedWorkerStep nsMax workerTi) (sharedWorkerInit ranges) front =
      some (infinite.states 0))
    (recurs : ∀ start, ∃ wait, (infinite.actions (start + wait)).byWorker)
    (inside : id < nsMax) (start : Nat) :
    ∃ later, start ≤ later ∧ (infinite.states later).worker = .loadNs id :=
  comes_to reached inside fun now _ _ => recurs now

/-- Nothing is queued in the namespace. -/
def IdleIn (id : NsId) (shared : SharedWorkerState) : Prop :=
  ∃ ns, shared.ns id = some ns ∧ ns.worker = .testFreeList ∧ ns.freeList = [] ∧
    ns.freeHlist = [] ∧ ns.workerList = [] ∧ ns.workerHlist = []

/-- The worker visits a namespace where nothing is queued. -/
def idleVisit (id : NsId) : List SharedWorkerAction :=
  [.loadWorkerNs] ++ List.replicate 6 (.inNs id .worker)

theorem IdleIn.visit (idle : IdleIn id shared) (inside : id < nsMax)
    (loads : shared.worker = .loadNs id) :
    ∃ after, run (sharedWorkerStep nsMax workerTi) shared (idleVisit id) = some after ∧
      after.worker = .loadNs (id + 1) ∧ ∀ other, IdleIn other shared → IdleIn other after := by
  obtain ⟨table, worker, ranges⟩ := shared
  obtain ⟨ns, present, worker, free, freeHead, list, hlist⟩ := idle
  change table id = some ns at present
  obtain rfl := loads
  obtain ⟨_, _, _, _, _, _, _, _, _, _, _, _, _, _, _, _, _⟩ := ns
  subst worker free freeHead list hlist
  refine ⟨_, by
    simp [idleVisit, run, sharedWorkerStep, inside, present, SharedWorkerState.Enables,
      SharedWorkerState.setNs, SharedWorkerState.leaveIteration, namespaceStep, workerStep,
      NamespaceAction.byWorker, WorkerPc.betweenIterations]
    rfl, ?_, ?_⟩
  · rfl
  · rintro other ⟨ns, present', empty⟩
    by_cases same : other = id
    · subst same
      exact ⟨_, Function.update_self _ _ _, rfl, rfl, rfl, rfl, rfl⟩
    · refine ⟨ns, ?_, empty⟩
      simpa [same] using present'

/-- The worker goes once round its two namespaces. -/
def idleRound : List SharedWorkerAction :=
  idleVisit 0 ++ idleVisit 1 ++ [.loadWorkerNs]

def IdleRound (shared : SharedWorkerState) : Prop :=
  shared.worker = .loadNs 0 ∧ IdleIn 0 shared ∧ IdleIn 1 shared

theorem IdleRound.run (idle : IdleRound shared) :
    ∃ after, Execution.run (sharedWorkerStep 2 0) shared idleRound = some after ∧
      IdleRound after := by
  obtain ⟨loads, first, second⟩ := idle
  obtain ⟨middle, ran, loads', keeps⟩ := first.visit Nat.zero_lt_two loads
  obtain ⟨last, ran', ends, keeps'⟩ := (keeps 1 second).visit Nat.one_lt_two loads'
  have restarts : sharedWorkerStep 2 0 last .loadWorkerNs =
      some { last with worker := .loadNs 0 } := by
    simp [sharedWorkerStep, ends]
  refine ⟨{ last with worker := .loadNs 0 }, ?_, rfl, keeps' 0 (keeps 0 first),
    keeps' 1 (keeps 1 second)⟩
  rw [idleRound, run_concat_eq_some_iff]
  exact ⟨last, by rw [run_append, ran]; exact ran', restarts⟩

/-- The worker meets thread `1` in namespace `1` at the version of the callback
there, which it keeps.  The thread leaves and enters again, and the next visit
destroys the object. -/
def heldThenIdleActions : List SharedWorkerAction :=
  idleVisit 0 ++ [.loadWorkerNs] ++
    (List.replicate 4 NamespaceAction.worker ++ passActions .worker 2 ++
      List.replicate 8 NamespaceAction.worker).map (.inNs 1) ++
    [.loadWorkerNs] ++
    ([.reader 1 .lrcuReadUnlockNs, .reader 1 .lockCount, .reader 1 .lockTest,
      .reader 1 .lockStore] : List NamespaceAction).map (.inNs 1) ++
    idleVisit 0 ++ [.loadWorkerNs] ++
    (List.replicate 3 NamespaceAction.worker ++ passActions .worker 2 ++
      List.replicate 9 NamespaceAction.worker).map (.inNs 1) ++ [.loadWorkerNs]

theorem worker_comes_round_of_held :
    ∃ infinite : InfiniteRun (sharedWorkerStep 2 0),
      run (sharedWorkerStep 2 0) (sharedWorkerInit fun _ => ⟨0, 0⟩)
          ([.lrcuNsInit 0, .lrcuNsInit 1] ++ enterActions.map (.inNs 1) ++
            callActions.map (.inNs 1)) = some (infinite.states 0) ∧
      (∃ ns, (infinite.states 0).ns 1 = some ns ∧ ⟨0, 1⟩ ∈ ns.callbacks ∧
        (ns.lns 1).counter = 1) ∧
      ∀ start, ∃ later, start ≤ later ∧ (infinite.states later).worker = .loadNs 1 := by
  obtain ⟨begun, idle, ns, reached, ran, present, queued, inside, round⟩ :
      ∃ begun idle ns,
        run (sharedWorkerStep 2 0) (sharedWorkerInit fun _ => ⟨0, 0⟩)
            ([.lrcuNsInit 0, .lrcuNsInit 1] ++ enterActions.map (.inNs 1) ++
              callActions.map (.inNs 1)) = some begun ∧
          run (sharedWorkerStep 2 0) begun heldThenIdleActions = some idle ∧
            begun.ns 1 = some ns ∧ ⟨0, 1⟩ ∈ ns.callbacks ∧ (ns.lns 1).counter = 1 ∧
              IdleRound idle := by
    refine ⟨_, _, _, rfl, rfl, rfl, by decide, rfl, rfl, ?_, ?_⟩
    · exact ⟨_, rfl, rfl, rfl, rfl, rfl, rfl⟩
    · exact ⟨_, rfl, rfl, rfl, rfl, rfl, rfl⟩
  obtain ⟨rest, begins, listed⟩ := @InfiniteRun.exists_of_rounds _ _ (sharedWorkerStep 2 0)
    idleRound (by decide) IdleRound (fun _ idle => idle.run) idle round
  subst begins
  obtain ⟨infinite, begins, _, follows⟩ := rest.exists_append ran
  subst begins
  have own : ∀ action ∈ idleRound, action.byWorker := by
    simp [idleRound, idleVisit, SharedWorkerAction.byWorker, NamespaceAction.byWorker]
  refine ⟨infinite, reached, ⟨ns, present, queued, inside⟩,
    worker_comes_round reached (fun start => ⟨heldThenIdleActions.length, ?_⟩) (by decide)⟩
  rw [Nat.add_comm, (follows start).2]
  exact own _ (List.mem_of_getElem? (listed start))

/-! ## What the worker reclaims -/

/-- The object of the callback is destroyed in the namespace. -/
def Reclaimed (id : NsId) (callback : Callback ObjId) (shared : SharedWorkerState) : Prop :=
  ∃ ns, shared.ns id = some ns ∧ ns.stage callback.obj = .destroyed

/-- The callback is on the lists of the namespace. -/
def Listed (id : NsId) (callback : Callback ObjId) (shared : SharedWorkerState) : Prop :=
  ∃ ns, shared.ns id = some ns ∧ callback ∈ ns.callbacks

theorem Listed.step (listed : Listed id callback shared)
    (stepped : sharedWorkerStep nsMax workerTi shared action = some after) :
    Listed id callback after ∨ Reclaimed id callback after := by
  obtain ⟨ns, present, listed⟩ := listed
  obtain ⟨ns', present'⟩ := installed_of_step stepped present
  cases nsMove_of_step stepped present' with
  | alone _ _ same =>
      obtain rfl := Option.some.inj (present.symm.trans same)
      exact Or.inl ⟨ns, present', listed⟩
  | installed absent => simp [present] at absent
  | handed _ same =>
      obtain rfl := Option.some.inj (present.symm.trans same)
      exact Or.inl ⟨_, present', listed⟩
  | own _ _ own same turn ownStep =>
      obtain rfl := Option.some.inj (present.symm.trans same)
      rcases callbacks_of_step ownStep listed with kept | destroyed
      · exact Or.inl ⟨ns', present', kept⟩
      · exact Or.inr ⟨ns', present', destroyed⟩

private theorem listed_or_reclaimed (listed : Listed id callback (infinite.states 0)) (now : Nat) :
    Listed id callback (infinite.states now) ∨
      ∃ later, Reclaimed id callback (infinite.states later) := by
  induction now with
  | zero => exact Or.inl listed
  | succ now ih =>
      rcases ih with listed | reclaimed
      · rcases listed.step (infinite.steps now) with kept | reclaimed
        · exact Or.inl kept
        · exact Or.inr ⟨now + 1, reclaimed⟩
      · exact Or.inr reclaimed

/-- The worker is on its way to the callback, with an array that does not hold it
back. -/
def ComesTo (id : NsId) (callback : Callback ObjId) (shared : SharedWorkerState) : Prop :=
  shared.worker = .visiting id ∧ ∃ ns, shared.ns id = some ns ∧
    CallbackAhead callback ns ∧ WorkerPcClear callback.version ns.ranges ns.worker

/-- What is left of the iteration in a namespace. -/
def visitRank (id : NsId) (shared : SharedWorkerState) : Nat ×ₗ Nat :=
  (shared.ns id).elim (toLex (0, 0)) workerRank

/-- In the namespace, no thread that the pass of the worker finds in a read
section has entered it at the version or before. -/
def MeetsNewerIn (id : NsId) (version : Nat) (shared : SharedWorkerState)
    (action : SharedWorkerAction) : Prop :=
  ∀ own ns, action = .inNs id own → shared.ns id = some ns → MeetsNewer .worker version ns own

theorem ComesTo.step (comes : ComesTo id callback shared) (ok : RoundOk nsMax shared)
    (newer : MeetsNewerIn id callback.version shared action)
    (stepped : sharedWorkerStep nsMax workerTi shared action = some after) :
    Reclaimed id callback after ∨
      ComesTo id callback after ∧ visitRank id after ≤ visitRank id shared ∧
        (action.byWorker → visitRank id after < visitRank id shared) := by
  obtain ⟨visiting, ns, present, ahead, clear⟩ := comes
  obtain ⟨ns', present'⟩ := installed_of_step stepped present
  have inside : action ≠ .loadWorkerNs := by
    rintro rfl
    cases sharedWorkerMove_of_step stepped with
    | skipNs _ pc | visitNs _ pc | nextRound _ pc => simp [visiting] at pc
  cases nsMove_of_step stepped present' with
  | alone _ _ same others =>
      right
      obtain rfl := Option.some.inj (present.symm.trans same)
      have foreign : ¬ action.byWorker := by
        intro byWorker
        obtain ⟨other, own, rfl, _, visited⟩ := visiting_of_byWorker stepped byWorker inside
        obtain rfl := SharedWorkerPc.visiting.inj (visiting.symm.trans visited)
        exact others own rfl
      have stays : after.worker = .visiting id := by
        cases roundMove_of_step stepped with
        | skip | visit | restart => exact absurd rfl inside
        | leave other own _ _ _ _ byWorker => exact absurd byWorker foreign
        | stay _ _ _ place => exact place.trans visiting
      have rank : visitRank id after = visitRank id shared := by
        rw [visitRank, visitRank, present, present']
      exact ⟨⟨stays, ns, present', ahead, clear⟩, rank.le, fun byWorker => absurd byWorker foreign⟩
  | installed absent => simp [present] at absent
  | handed => exact absurd rfl inside
  | own _ _ own same turn ownStep =>
      obtain rfl := Option.some.inj (present.symm.trans same)
      rcases ahead.turn (ok.namespaces id ns present) clear ownStep with
        destroyed | ⟨aheadNext, goesOn, lower⟩
      · exact Or.inl ⟨ns', present', destroyed⟩
      · right
        have stays : after.worker = .visiting id := by
          cases roundMove_of_step stepped with
          | leave _ _ _ ns changed before byWorker step ended =>
              obtain rfl := Option.some.inj (present.symm.trans before)
              obtain rfl := Option.some.inj (ownStep.symm.trans step)
              exact absurd ended (goesOn byWorker)
          | stay _ _ _ place => exact place.trans visiting
        refine ⟨⟨stays, ns', present', aheadNext,
          clear.step (newer own ns rfl present) ownStep⟩, ?_⟩
        simp only [visitRank, present, present', Option.elim_some]
        exact lower

/-- A callback of a namespace is destroyed in the end, if whenever the worker
comes to the namespace its array does not hold the version back, and the passes
there find no thread in a read section of that version or before. -/
theorem reclaimed_of_array
    (reached : run (sharedWorkerStep nsMax workerTi) (sharedWorkerInit ranges) front =
      some (infinite.states 0)) (inside : id < nsMax)
    (listed : Listed id callback (infinite.states 0))
    (recurs : infinite.RecursUntil 0 (Reclaimed id callback) (·.byWorker))
    (letsGo : ∀ now, (infinite.states now).worker = .loadNs id →
      ¬ ((infinite.states now).ranges 0).Contains callback.version)
    (newer : infinite.MeetsFrom 0 (MeetsNewerIn id callback.version)) :
    ∃ later, Reclaimed id callback (infinite.states later) := by
  by_contra never
  have recursAlways : infinite.RecursUntil 0 (fun _ => False) (·.byWorker) :=
    fun now le _ => recurs now le fun reclaimed => never ⟨now, reclaimed⟩
  obtain ⟨comes, _, pc⟩ := comes_to reached inside recursAlways
  have stays : ∀ now, (infinite.states now).worker = .loadNs id →
      ¬ (infinite.actions now).byWorker → (infinite.states (now + 1)).worker = .loadNs id := by
    intro now loading foreign
    generalize taken : infinite.actions now = action at foreign
    have stepped := infinite.steps now
    rw [taken] at stepped
    cases roundMove_of_step stepped with
    | skip | visit | restart => exact absurd trivial foreign
    | leave _ _ _ _ _ _ byWorker => exact absurd byWorker foreign
    | stay _ _ _ same => exact same.trans loading
  obtain ⟨wait, turn⟩ := recursAlways comes (Nat.zero_le _) not_false
  obtain ⟨loads, _, loading, own⟩ := InfiniteRun.holds_until SharedWorkerAction.byWorker
    (fun shared : SharedWorkerState => shared.worker = .loadNs id) stays pc turn
  obtain ⟨ns, present, queued⟩ := (listed_or_reclaimed listed loads).resolve_right never
  have ok := roundOk_of_infiniteRun reached loads
  have comesTo : ComesTo id callback (infinite.states (loads + 1)) := by
    generalize taken : infinite.actions loads = action at own
    have stepped := infinite.steps loads
    rw [taken] at stepped
    cases roundMove_of_step stepped with
    | skip other pc _ absent =>
        obtain rfl := SharedWorkerPc.loadNs.inj (loading.symm.trans pc)
        simp [present] at absent
    | visit other pc _ visited before moved handed =>
        obtain rfl := SharedWorkerPc.loadNs.inj (loading.symm.trans pc)
        obtain rfl := Option.some.inj (present.symm.trans before)
        have between := ok.turns id ns present (by simp [loading])
        refine ⟨moved, _, handed, ?_, ?_⟩
        · simp only [CallbackAhead, between]
          exact queued
        · simp only [between]
          exact letsGo loads loading
    | restart other pc outside =>
        obtain rfl := SharedWorkerPc.loadNs.inj (loading.symm.trans pc)
        exact absurd inside (Nat.not_lt.mpr outside)
    | leave _ _ pc => simp [loading] at pc
    | stay _ elsewhere =>
        obtain ⟨_, _, _, _, pc⟩ := visiting_of_byWorker stepped own elsewhere
        simp [loading] at pc
  obtain ⟨later, _, reclaimed⟩ : ∃ later, loads + 1 ≤ later ∧
      Reclaimed id callback (infinite.states later) := by
    apply InfiniteRun.reaches (Reclaimed id callback)
      (fun shared => RoundOk nsMax shared ∧ ComesTo id callback shared) (visitRank id)
      _ (recurs.later (Nat.zero_le _)) (newer.later (Nat.zero_le _))
      ⟨roundOk_of_infiniteRun reached _, comesTo⟩
    rintro shared action after newer ⟨ok, comes⟩ stepped
    rcases comes.step ok newer stepped with reclaimed | ⟨comesNext, lower⟩
    · exact Or.inl reclaimed
    · exact Or.inr ⟨⟨ok.step stepped, comesNext⟩, lower⟩
  exact never ⟨later, reclaimed⟩

/-- Wherever the worker is, its array does not hold the version back. -/
def ArrayClear (version : Nat) : SharedWorkerState → Prop :=
  SharedArrayIs (fun ranges => ¬ (ranges 0).Contains version) (WorkerPcClear version)

theorem ArrayClear.step {version : Nat} (clear : ArrayClear version shared)
    (turns : TurnsOk shared) (newer : ∀ id, MeetsNewerIn id version shared action)
    (stepped : sharedWorkerStep nsMax workerTi shared action = some after) :
    ArrayClear version after := by
  refine SharedArrayIs.step clear (fun _ => Iff.rfl) turns ?_ stepped
  intro id own ns changed its present clear ownStep
  exact clear.step (newer id own ns its present) ownStep

/-- A callback of a namespace is destroyed in the end, if the array that the
namespaces share does not hold it back, and the passes of the worker find no
thread in a read section of its version or before, in whatever namespace. -/
theorem shared_worker_reclaims
    (reached : run (sharedWorkerStep nsMax workerTi) (sharedWorkerInit ranges) front =
      some (infinite.states 0)) (inside : id < nsMax)
    (listed : Listed id callback (infinite.states 0))
    (clear : ArrayClear callback.version (infinite.states 0))
    (recurs : infinite.RecursUntil 0 (Reclaimed id callback) (·.byWorker))
    (newer : infinite.MeetsFrom 0 fun shared action =>
      ∀ id, MeetsNewerIn id callback.version shared action) :
    ∃ later, Reclaimed id callback (infinite.states later) := by
  apply reclaimed_of_array reached inside listed recurs _ fun now le => newer now le id
  intro now loads
  obtain ⟨_, clearNow⟩ : TurnsOk (infinite.states now) ∧
      ArrayClear callback.version (infinite.states now) := by
    apply InfiniteRun.invariant_from
      (fun shared => TurnsOk shared ∧ ArrayClear callback.version shared) _ newer
      ⟨(roundOk_of_infiniteRun reached 0).turns, clear⟩ (Nat.zero_le now)
    rintro shared action after newer ⟨turns, clear⟩ stepped
    exact ⟨turns.step stepped, clear.step turns newer stepped⟩
  exact clearNow.between id loads

/-- Passes meet nobody in a run without readers. -/
private theorem meetsNewerIn_of_outside {version : Nat}
    (outside : ∀ id ns, (infinite.states 0).ns id = some ns →
      NobodyInside ns ∧ LoadsZero .worker ns)
    (others : infinite.MeetsFrom 0 fun _ action => action.byReader = false) :
    infinite.MeetsFrom 0 fun shared action => ∀ id, MeetsNewerIn id version shared action := by
  intro now le id own ns _ present
  have outsideNow : ∀ id ns, (infinite.states now).ns id = some ns →
      NobodyInside ns ∧ LoadsZero .worker ns := by
    apply InfiniteRun.invariant_from
      (fun shared : SharedWorkerState => ∀ id ns, shared.ns id = some ns →
        NobodyInside ns ∧ LoadsZero .worker ns) _ others outside le
    intro shared action after other outside stepped
    refine namespaces_preserve (fun ns => NobodyInside ns ∧ LoadsZero .worker ns) (fun ranges => ?_)
      (fun ns ranges holds => holds)
      (fun ns own next (other : own.byReader = false) holds step => ⟨holds.1.step other step,
        holds.2.step (fun _ _ _ _ _ ti _ _ _ => holds.1 ti) step⟩) ?_ outside stepped
    · exact ⟨fun _ => rfl, fun _ _ _ _ _ _ visiting => by
        simp [namespaceInit, NamespaceState.passOf] at visiting⟩
    · rintro id own ns rfl _
      exact other
  exact (outsideNow id ns present).2.meetsNewer

/-- The worker goes through an iteration in namespace `0`, where nothing is
queued, and comes to the callback in namespace `1`. -/
def sharedReclaimActions : List SharedWorkerAction :=
  [.loadWorkerNs] ++ List.replicate 6 (.inNs 0 .worker) ++ [.loadWorkerNs] ++
    reclaimActions.map (.inNs 1)

theorem shared_worker_reclaims_of_call :
    ∃ infinite : InfiniteRun (sharedWorkerStep 2 0),
      run (sharedWorkerStep 2 0) (sharedWorkerInit fun _ => ⟨0, 0⟩)
          ([.lrcuNsInit 0, .lrcuNsInit 1] ++ callActions.map (.inNs 1)) =
        some (infinite.states 0) ∧
      Listed 1 ⟨0, 1⟩ (infinite.states 0) ∧
        ∃ later, Reclaimed 1 ⟨0, 1⟩ (infinite.states later) := by
  obtain ⟨called, final, ns, other, left, reached, ran, loads, first, present, present', absent,
      queued, worker, worker', outside, outside', found, destroyed⟩ :
      ∃ called final ns other left,
        run (sharedWorkerStep 2 0) (sharedWorkerInit fun _ => ⟨0, 0⟩)
            ([.lrcuNsInit 0, .lrcuNsInit 1] ++ callActions.map (.inNs 1)) = some called ∧
          run (sharedWorkerStep 2 0) called (sharedReclaimActions ++ [.inNs 1 .worker]) =
            some final ∧
          called.worker = .loadNs 0 ∧ called.ranges 0 = ⟨0, 0⟩ ∧ called.ns 0 = some other ∧
            called.ns 1 = some ns ∧ (∀ id, called.ns (id + 2) = none) ∧ ⟨0, 1⟩ ∈ ns.callbacks ∧
              ns.worker = .testFreeList ∧ other.worker = .testFreeList ∧ NobodyInside ns ∧
                NobodyInside other ∧ final.ns 1 = some left ∧ left.stage 0 = .destroyed := by
    refine ⟨_, _, _, _, _, rfl, rfl, rfl, rfl, rfl, rfl, fun _ => rfl, by decide, rfl, rfl,
      fun _ => rfl, fun _ => rfl, rfl, rfl⟩
  obtain ⟨rest, starts, bumps, always⟩ := @InfiniteRun.exists_of_schedule _ _
    (sharedWorkerStep 2 0) (fun _ => .inNs 1 (.writer .lrcuWriteBarrierNs))
    (fun _ => Reclaimed 1 ⟨0, 1⟩) (by
      rintro - shared ⟨ns, present, destroyed⟩
      refine ⟨shared.setNs 1 { ns with version := u64Succ ns.version }, ?_, _, ns_setNs 1 _,
        destroyed⟩
      simp [sharedWorkerStep, SharedWorkerState.Enables, present, namespaceStep, writerStep,
        SharedWorkerState.leaveIteration, NamespaceAction.byWorker]) final ⟨left, found, destroyed⟩
  subst starts
  obtain ⟨infinite, begins, listed, follows⟩ := rest.exists_append ran
  subst begins
  have queuedNow : Listed 1 ⟨0, 1⟩ (infinite.states 0) := ⟨ns, present', queued⟩
  refine ⟨infinite, reached, queuedNow, ?_⟩
  have others : infinite.MeetsFrom 0 fun _ action => action.byReader = false := by
    intro now _
    by_cases early : now < (sharedReclaimActions ++ [SharedWorkerAction.inNs 1 .worker]).length
    · rw [listed now _ (List.getElem?_eq_getElem early)]
      have all : ∀ action ∈ sharedReclaimActions ++ [.inNs 1 .worker],
          action.byReader = false := by decide
      exact all _ (List.getElem_mem early)
    · obtain ⟨later, rfl⟩ := Nat.exists_eq_add_of_le (Nat.not_lt.mp early)
      rw [(follows later).2, bumps]
      rfl
  have nobody : ∀ id ns, (infinite.states 0).ns id = some ns →
      NobodyInside ns ∧ LoadsZero .worker ns := by
    have zero : ∀ {ns : NamespaceState}, ns.worker = .testFreeList → LoadsZero .worker ns := by
      intro ns worker _ _ _ _ _ _ visiting
      simp [passOf_worker, worker] at visiting
    intro id ns' present''
    rcases id with _ | _ | id
    · exact Option.some.inj (present.symm.trans present'') ▸ ⟨outside', zero worker'⟩
    · exact Option.some.inj (present'.symm.trans present'') ▸ ⟨outside, zero worker⟩
    · exact absurd ((absent id).symm.trans present'') (by simp)
  have arrives : ∀ now, sharedReclaimActions.length < now →
      Reclaimed 1 ⟨0, 1⟩ (infinite.states now) := by
    intro now late
    obtain ⟨wait, rfl⟩ := Nat.exists_eq_add_of_le late
    have after := (follows wait).1
    rw [List.length_append, List.length_singleton] at after
    rw [Nat.succ_eq_add_one, after]
    exact always wait
  have recurs : infinite.RecursUntil 0 (Reclaimed 1 ⟨0, 1⟩) (·.byWorker) :=
    InfiniteRun.recursUntil_of_last listed rfl arrives
  have clear : ArrayClear 1 (infinite.states 0) := by
    refine ⟨fun _ _ => ?_, by simp [loads]⟩
    simp [first, ClosedInterval.Contains]
  exact shared_worker_reclaims reached (by decide) queuedNow clear recurs
    (meetsNewerIn_of_outside nobody others)

end LightRcu
