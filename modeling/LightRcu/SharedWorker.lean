import LightRcu.NamespaceInvariants
import LightRcu.VersionClock

/-!
# One worker for all namespaces

A handler has an array of `LRCU_NS_MAX` namespaces and one worker that goes
round them.  `lrcu_worker` has a single local array of ranges, which every
namespace finds as the pass in the one before has left it.  Otherwise the
namespaces share nothing but the threads, and a thread takes its steps in one
namespace at a time.  Installed namespaces stay installed.
-/

namespace LightRcu

open Execution

/-- Where `lrcu_worker` is in its loop over the namespaces. -/
inductive SharedWorkerPc
  /-- at the head of the loop, before the load of `h->worker_ns[i]` -/
  | loadNs (id : NsId)
  | visiting (id : NsId)
  deriving DecidableEq, Repr

structure SharedWorkerState where
  /-- What `h->ns` and `h->worker_ns` point to. -/
  ns : NsId → Option NamespaceState
  worker : SharedWorkerPc
  /-- The local array of `lrcu_worker`, between two namespaces. -/
  ranges : Nat → LrcuRange

/-- A handler without namespaces, whose worker begins its first round. -/
def sharedWorkerInit (ranges : Nat → LrcuRange) : SharedWorkerState where
  ns := fun _ => none
  worker := .loadNs 0
  ranges := ranges

inductive SharedWorkerAction
  | lrcuNsInit (id : NsId)
  | loadWorkerNs
  | inNs (id : NsId) (action : NamespaceAction)

/-- The worker takes the step, as itself or in its pass. -/
def NamespaceAction.byWorker : NamespaceAction → Bool
  | .worker | .pass .worker _ => true
  | _ => false

/-- The worker is between two iterations. -/
def WorkerPc.betweenIterations : WorkerPc → Bool
  | .testFreeList => true
  | _ => false

namespace SharedWorkerState

def setNs (state : SharedWorkerState) (id : NsId) (ns : NamespaceState) : SharedWorkerState :=
  { state with ns := Function.update state.ns id (some ns) }

/-- The thread is in no other namespace in the middle of `lrcu_read_lock_ns`. -/
def IdleElsewhere (state : SharedWorkerState) (nsMax : Nat) (id : NsId) (i : ReaderId) : Prop :=
  ∀ other < nsMax, other ≠ id → ∀ ns ∈ state.ns other, ns.reader i = .idle

instance (state : SharedWorkerState) (nsMax : Nat) (id : NsId) (i : ReaderId) :
    Decidable (state.IdleElsewhere nsMax id i) :=
  inferInstanceAs (Decidable (∀ other < nsMax, _))

/-- Whoever takes the step is in the namespace. -/
def Enables (state : SharedWorkerState) (nsMax : Nat) (id : NsId) : NamespaceAction → Prop
  | .worker | .pass .worker _ => state.worker = .visiting id
  | .reader i _ => state.IdleElsewhere nsMax id i
  | _ => True

instance (state : SharedWorkerState) (nsMax : Nat) (id : NsId) (action : NamespaceAction) :
    Decidable (state.Enables nsMax id action) := by
  unfold Enables
  split <;> infer_instance

/-- Behind the last step of an iteration the worker goes on to the next
namespace, with the array as it is. -/
def leaveIteration (state : SharedWorkerState) (id : NsId) (action : NamespaceAction)
    (next : NamespaceState) : SharedWorkerState :=
  if action.byWorker && next.worker.betweenIterations then
    { state with worker := .loadNs (id + 1), ranges := next.ranges }
  else state

end SharedWorkerState

def sharedWorkerStep (nsMax : Nat) (workerTi : ReaderId) (state : SharedWorkerState) :
    SharedWorkerAction → Option SharedWorkerState
  | .lrcuNsInit id =>
      if id < nsMax ∧ (state.ns id).isNone then
        some (state.setNs id (namespaceInit workerTi state.ranges))
      else none
  | .loadWorkerNs =>
      match state.worker with
      | .loadNs id =>
          if id < nsMax then
            match state.ns id with
            | none => some { state with worker := .loadNs (id + 1) }
            | some ns =>
                some { state.setNs id { ns with ranges := state.ranges } with
                  worker := .visiting id }
          else some { state with worker := .loadNs 0 }
      | .visiting _ => none
  | .inNs id action =>
      if state.Enables nsMax id action then
        (state.ns id).bind fun ns =>
          (namespaceStep ns action).map fun next =>
            (state.setNs id next).leaveIteration id action next
      else none

/-- A step that a namespace takes meets a condition there. -/
def InNamespaces (condition : NamespaceState → NamespaceAction → Prop)
    (state : SharedWorkerState) (action : SharedWorkerAction) : Prop :=
  ∀ id own ns, action = .inNs id own → state.ns id = some ns → condition ns own

variable {nsMax : Nat} {workerTi : ReaderId} {state next : SharedWorkerState}

/-! ## Steps -/

inductive SharedWorkerMove (nsMax : Nat) (workerTi : ReaderId) (state : SharedWorkerState) :
    SharedWorkerAction → SharedWorkerState → Prop
  | lrcuNsInit (id : NsId) (absent : state.ns id = none) :
      SharedWorkerMove nsMax workerTi state (.lrcuNsInit id)
        (state.setNs id (namespaceInit workerTi state.ranges))
  | skipNs (id : NsId) (pc : state.worker = .loadNs id) (absent : state.ns id = none) :
      SharedWorkerMove nsMax workerTi state .loadWorkerNs
        { state with worker := .loadNs (id + 1) }
  | visitNs (id : NsId) (pc : state.worker = .loadNs id) (ns : NamespaceState)
      (present : state.ns id = some ns) :
      SharedWorkerMove nsMax workerTi state .loadWorkerNs
        { state.setNs id { ns with ranges := state.ranges } with worker := .visiting id }
  | nextRound (id : NsId) (pc : state.worker = .loadNs id) :
      SharedWorkerMove nsMax workerTi state .loadWorkerNs { state with worker := .loadNs 0 }
  | inNs (id : NsId) (action : NamespaceAction) (enabled : state.Enables nsMax id action)
      (ns changed : NamespaceState) (present : state.ns id = some ns)
      (stepped : namespaceStep ns action = some changed) :
      SharedWorkerMove nsMax workerTi state (.inNs id action)
        ((state.setNs id changed).leaveIteration id action changed)

theorem sharedWorkerMove_of_step {action : SharedWorkerAction}
    (stepped : sharedWorkerStep nsMax workerTi state action = some next) :
    SharedWorkerMove nsMax workerTi state action next := by
  cases action with
  | lrcuNsInit id =>
      simp only [sharedWorkerStep, Option.ite_none_right_eq_some, Option.some.injEq,
        Option.isNone_iff_eq_none] at stepped
      obtain ⟨⟨_, absent⟩, rfl⟩ := stepped
      exact .lrcuNsInit id absent
  | loadWorkerNs =>
      simp only [sharedWorkerStep] at stepped
      split at stepped
      next id pc =>
        split_ifs at stepped
        · split at stepped
          next absent => exact Option.some.inj stepped ▸ .skipNs id pc absent
          next ns present => exact Option.some.inj stepped ▸ .visitNs id pc ns present
        · exact Option.some.inj stepped ▸ .nextRound id pc
      next => simp at stepped
  | inNs id action =>
      simp only [sharedWorkerStep, Option.ite_none_right_eq_some] at stepped
      obtain ⟨enabled, stepped⟩ := stepped
      obtain ⟨ns, present, stepped⟩ := Option.bind_eq_some_iff.mp stepped
      obtain ⟨changed, own, rfl⟩ := Option.map_eq_some_iff.mp stepped
      exact .inNs id action enabled ns changed present own

@[simp]
theorem ns_leaveIteration (id : NsId) (action : NamespaceAction) (ns : NamespaceState) :
    (state.leaveIteration id action ns).ns = state.ns := by
  unfold SharedWorkerState.leaveIteration
  split <;> rfl

@[simp]
theorem ns_setNs (id : NsId) (ns : NamespaceState) : (state.setNs id ns).ns id = some ns :=
  Function.update_self _ _ _

theorem ns_setNs_of_ne {id other : NsId} (apart : other ≠ id) (ns : NamespaceState) :
    (state.setNs id ns).ns other = state.ns other :=
  Function.update_of_ne apart _ _

/-! ## The namespaces -/

/-- Whoever visits another namespace takes no step of the worker in this one. -/
theorem foreign_of_enables {id : NsId} {action : NamespaceAction}
    (enabled : state.Enables nsMax id action) (elsewhere : state.worker ≠ .visiting id) :
    action.byWorker = false := by
  unfold SharedWorkerState.Enables at enabled
  split at enabled
  · exact absurd enabled elsewhere
  · exact absurd enabled elsewhere
  · rfl
  next notWorker notPass _ =>
    unfold NamespaceAction.byWorker
    split
    · exact (notWorker rfl).elim
    · exact (notPass _ rfl).elim
    · rfl

/-- A step of the handler leaves a namespace alone, or installs it, or hands it
the array, or is a step in it. -/
inductive NsMove (workerTi : ReaderId) (state : SharedWorkerState) (id : NsId) :
    SharedWorkerAction → NamespaceState → Prop
  | alone (action : SharedWorkerAction) (ns : NamespaceState) (before : state.ns id = some ns)
      (elsewhere : ∀ own, action ≠ .inNs id own) :
      NsMove workerTi state id action ns
  | installed (absent : state.ns id = none) :
      NsMove workerTi state id (.lrcuNsInit id) (namespaceInit workerTi state.ranges)
  | handed (ns : NamespaceState) (before : state.ns id = some ns) :
      NsMove workerTi state id .loadWorkerNs { ns with ranges := state.ranges }
  | own (ns next : NamespaceState) (action : NamespaceAction) (before : state.ns id = some ns)
      (turn : action.byWorker = true → state.worker = .visiting id)
      (stepped : namespaceStep ns action = some next) :
      NsMove workerTi state id (.inNs id action) next

theorem nsMove_of_step {action : SharedWorkerAction} {id : NsId} {ns : NamespaceState}
    (stepped : sharedWorkerStep nsMax workerTi state action = some next)
    (found : next.ns id = some ns) : NsMove workerTi state id action ns := by
  cases sharedWorkerMove_of_step stepped with
  | lrcuNsInit other absent =>
      by_cases same : id = other
      · subst same
        rw [ns_setNs, Option.some.injEq] at found
        exact found ▸ .installed absent
      · exact .alone _ ns (ns_setNs_of_ne same _ ▸ found) (by simp)
  | skipNs | nextRound => exact .alone _ ns found (by simp)
  | visitNs other pc visited present =>
      change (state.setNs other _).ns id = some ns at found
      by_cases same : id = other
      · subst same
        rw [ns_setNs, Option.some.injEq] at found
        exact found ▸ .handed visited present
      · exact .alone _ ns (ns_setNs_of_ne same _ ▸ found) (by simp)
  | inNs other own enabled before changed present ownStep =>
      rw [ns_leaveIteration] at found
      by_cases same : id = other
      · subst same
        rw [ns_setNs, Option.some.injEq] at found
        refine found ▸ .own before changed own present (fun byWorker => ?_) ownStep
        by_contra elsewhere
        simp [foreign_of_enables enabled elsewhere] at byWorker
      · refine .alone _ ns (ns_setNs_of_ne same _ ▸ found) fun own' same' => same ?_
        exact (SharedWorkerAction.inNs.inj same').1.symm

/-- Namespaces stay installed. -/
theorem installed_of_step {action : SharedWorkerAction} {id : NsId} {ns : NamespaceState}
    (stepped : sharedWorkerStep nsMax workerTi state action = some next)
    (found : state.ns id = some ns) : ∃ ns', next.ns id = some ns' := by
  have of_setNs : ∀ (other : NsId) (changed : NamespaceState),
      ∃ ns', (state.setNs other changed).ns id = some ns' := by
    intro other changed
    by_cases same : id = other
    · exact ⟨changed, same ▸ ns_setNs id changed⟩
    · exact ⟨ns, (ns_setNs_of_ne same changed).trans found⟩
  cases sharedWorkerMove_of_step stepped with
  | lrcuNsInit other absent => exact of_setNs other _
  | skipNs | nextRound => exact ⟨ns, found⟩
  | visitNs other pc visited present => exact of_setNs other _
  | inNs other own enabled before changed present ownStep =>
      rw [ns_leaveIteration]
      exact of_setNs other changed

/-- The invariant rule for the namespaces of a handler: what the steps of a
namespace keep up, whatever they find in the array of the worker, holds of every
installed namespace. -/
theorem namespaces_preserve {condition : NamespaceState → NamespaceAction → Prop}
    (invariant : NamespaceState → Prop)
    (starts : ∀ ranges, invariant (namespaceInit workerTi ranges))
    (shares : ∀ ns ranges, invariant ns → invariant { ns with ranges := ranges })
    (preserves : ∀ ns action next, condition ns action → invariant ns →
      namespaceStep ns action = some next → invariant next)
    {action : SharedWorkerAction}
    (met : InNamespaces condition state action)
    (holds : ∀ id ns, state.ns id = some ns → invariant ns)
    (stepped : sharedWorkerStep nsMax workerTi state action = some next) :
    ∀ id ns, next.ns id = some ns → invariant ns := by
  intro id ns found
  cases nsMove_of_step stepped found with
  | alone _ _ before _ => exact holds id ns before
  | installed absent => exact starts state.ranges
  | handed before present => exact shares before state.ranges (holds id before present)
  | own before _ own present _ ownStep =>
      exact preserves before own ns (met id own before rfl present) (holds id before present)
        ownStep

/-! ## The turns of the worker -/

/-- What only the worker changes. -/
theorem worker_of_foreign_step {ns changed : NamespaceState} {action : NamespaceAction}
    (stepped : namespaceStep ns action = some changed) (foreign : action.byWorker = false) :
    changed.worker = ns.worker ∧ changed.ranges = ns.ranges := by
  cases action with
  | reader i action =>
      obtain ⟨_, _, _, _, rfl, _⟩ := (readerMove_of_step stepped).shape
      exact ⟨rfl, rfl⟩
  | writer action =>
      obtain ⟨_, _, _, _, rfl⟩ := (writerMove_of_step stepped).shape
      exact ⟨rfl, rfl⟩
  | call obj action =>
      obtain ⟨_, _, _, rfl⟩ := (callMove_of_step stepped).shape
      exact ⟨rfl, rfl⟩
  | pass owner action =>
      cases owner with
      | worker => simp [NamespaceAction.byWorker] at foreign
      | caller c =>
          obtain ⟨pass, middle, pass', found, move, rfl⟩ := passAction_cases stepped
          obtain ⟨_, _, rfl⟩ := move.shape
          cases pc : ns.caller c <;> simp [NamespaceState.setPass, NamespaceState.setCaller, pc]
  | worker => simp [NamespaceAction.byWorker] at foreign
  | enter c barrier ranges =>
      obtain ⟨_, rfl⟩ := enter_shape stepped
      exact ⟨rfl, rfl⟩
  | caller c =>
      obtain ⟨_, _, rfl⟩ := callerMove_of_step stepped
      exact ⟨rfl, rfl⟩

/-- The worker is in the middle of an iteration only in the namespace that it
visits. -/
def TurnsOk (state : SharedWorkerState) : Prop :=
  ∀ id ns, state.ns id = some ns → state.worker ≠ .visiting id → ns.worker = .testFreeList

theorem turnsOk_init (ranges : Nat → LrcuRange) : TurnsOk (sharedWorkerInit ranges) := by
  intro id ns found
  simp [sharedWorkerInit] at found

theorem worker_leaveIteration (state : SharedWorkerState) (id : NsId) (action : NamespaceAction)
    (changed : NamespaceState) :
    (action.byWorker = true ∧ changed.worker = .testFreeList ∧
        (state.leaveIteration id action changed).worker = .loadNs (id + 1) ∧
        (state.leaveIteration id action changed).ranges = changed.ranges) ∨
      (action.byWorker = true → changed.worker ≠ .testFreeList) ∧
        (state.leaveIteration id action changed).worker = state.worker ∧
        (state.leaveIteration id action changed).ranges = state.ranges := by
  have between : changed.worker.betweenIterations = true ↔ changed.worker = .testFreeList := by
    cases changed.worker <;> simp [WorkerPc.betweenIterations]
  unfold SharedWorkerState.leaveIteration
  split_ifs with leaves
  · rw [Bool.and_eq_true, between] at leaves
    exact Or.inl ⟨leaves.1, leaves.2, rfl, rfl⟩
  · rw [Bool.and_eq_true, between] at leaves
    exact Or.inr ⟨fun own ended => leaves ⟨own, ended⟩, rfl, rfl⟩

theorem TurnsOk.step {action : SharedWorkerAction} (turns : TurnsOk state)
    (stepped : sharedWorkerStep nsMax workerTi state action = some next) : TurnsOk next := by
  intro id ns found elsewhere
  cases sharedWorkerMove_of_step stepped with
  | lrcuNsInit other absent =>
      by_cases same : id = other
      · subst same
        rw [ns_setNs, Option.some.injEq] at found
        exact found ▸ rfl
      · exact turns id ns (ns_setNs_of_ne same _ ▸ found) elsewhere
  | skipNs other pc absent | nextRound other pc => exact turns id ns found (by simp [pc])
  | visitNs other pc visited present =>
      have apart : id ≠ other := fun same => elsewhere (by rw [same])
      exact turns id ns (ns_setNs_of_ne apart _ ▸ found) (by simp [pc])
  | inNs other own enabled before changed present ownStep =>
      rw [ns_leaveIteration] at found
      by_cases same : id = other
      · subst same
        rw [ns_setNs, Option.some.injEq] at found
        subst found
        rcases worker_leaveIteration (state.setNs id changed) id own changed with
          ⟨_, ended, _⟩ | ⟨_, pc, _⟩
        · exact ended
        · rw [pc] at elsewhere
          have foreign := foreign_of_enables enabled elsewhere
          rw [(worker_of_foreign_step ownStep foreign).1]
          exact turns id before present elsewhere
      · rw [ns_setNs_of_ne same] at found
        refine turns id ns found fun visited => elsewhere ?_
        have foreign := foreign_of_enables enabled (by simp [visited, same])
        rcases worker_leaveIteration (state.setNs other changed) other own changed with
          ⟨byWorker, _⟩ | ⟨_, pc, _⟩
        · simp [foreign] at byWorker
        · exact pc.trans visited

end LightRcu
