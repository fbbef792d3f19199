import LightRcu.PassCoverage

/-!
# When a thread is declared hung

A namespace beside a clock that never goes back, which the visits of the passes
read.  A visit of `ns->threads` moves a thread to `ns->hung_threads` when the
timer of the thread has expired.  The timer is set by the first visit that finds
the thread in a read section, and is cleared by a visit that finds it outside.
The moves of the threads themselves set and clear nothing, so a timer may still
run from an earlier section.
-/

namespace LightRcu

open Execution

variable {state next : NamespaceState}

/-! ## What a visit does -/

/-- A visit only writes to the thread that it is at. -/
theorem info_of_visit {loop : PassLoop} {currentVersion : Nat}
    {pass visited : PassState ReaderId} {sample : Sample}
    (visits : visitNext loop currentVersion pass sample = some visited) :
    ∃ ti, (pass.lists.walked loop)[pass.index]? = some ti ∧
      visited.lists.info = Function.update pass.lists.info ti
        (loop.visit currentVersion (pass.lists.info ti) sample).info := by
  obtain ⟨ti, found, _, ⟨_, _, lists⟩ | ⟨_, _, lists⟩⟩ := visitNext_cases visits
  · refine ⟨ti, found, ?_⟩
    rw [lists]
    cases loop <;> rfl
  · exact ⟨ti, found, by rw [lists]; rfl⟩

/-- A visit leaves the timer as it is, clears it, or sets it to the time that it
reads. -/
theorem timeval_of_visit (loop : PassLoop) (currentVersion : Nat) (info : LrcuThreadInfo)
    (sample : Sample) :
    (loop.visit currentVersion info sample).info.timeval = info.timeval ∨
      (loop.visit currentVersion info sample).info.timeval = 0 ∨
        info.timeval = 0 ∧
          (loop.visit currentVersion info sample).info.timeval = sample.now := by
  cases loop with
  | hungThreads => exact Or.inl rfl
  | threads =>
      simp only [PassLoop.visit, visitThread]
      split_ifs with active set
      · exact Or.inl rfl
      · exact Or.inr (Or.inr ⟨by simpa [lrcuTimerIsset] using set, rfl⟩)
      · exact Or.inr (Or.inl rfl)

/-- The thread that a visit of `ns->threads` declares hung. -/
def declaresHung (state : NamespaceState) : NamespaceAction → Option ReaderId
  | .pass owner (.visit now) =>
      match state.passOf owner with
      | some (.visiting .threads currentVersion index (some version) (some counter) _) =>
          (state.lists.threads[index]?).bind fun ti =>
            if (visitThread currentVersion (state.lists.info ti) ⟨⟨version, counter⟩, now⟩).moves
            then some ti else none
      | _ => none
  | _ => none

/-! ## The clock -/

/-- A namespace and a clock, and what is remembered of the threads. -/
structure HangTimes where
  ns : NamespaceState
  /-- the time that `LRCU_TIMER_GET` reads -/
  clock : Nat
  /-- when the thread last entered an outermost read section -/
  entered : ReaderId → Nat
  /-- whether the thread has been outside since its timer was set -/
  left : ReaderId → Bool

inductive TimedAction
  | tick (elapsed : Nat)
  | act (action : NamespaceAction)

def timedInit (workerTi : ReaderId) (ranges : Nat → LrcuRange) (clock : Nat) : HangTimes where
  ns := namespaceInit workerTi ranges
  clock := clock
  entered := fun _ => clock
  left := fun _ => true

/-- A visit reads the clock. -/
def NamespaceAction.atTime (clock : Nat) : NamespaceAction → NamespaceAction
  | .pass owner (.visit _) => .pass owner (.visit clock)
  | action => action

theorem now_of_atTime {clock now : Nat} {owner : PassOwner} {action : NamespaceAction}
    (same : action.atTime clock = .pass owner (.visit now)) : now = clock := by
  cases action with
  | pass owner' own =>
      cases own with
      | visit now' =>
          obtain ⟨_, ⟨⟩⟩ := NamespaceAction.pass.inj same
          rfl
      | _ => simp [NamespaceAction.atTime] at same
  | _ => simp [NamespaceAction.atTime] at same

namespace HangTimes

/-- The timer of the thread is set by the step. -/
def timerStarts (state : HangTimes) (next : NamespaceState) (i : ReaderId) : Bool :=
  !lrcuTimerIsset (state.ns.lists.info i).timeval && lrcuTimerIsset (next.lists.info i).timeval

/-- What is remembered behind a step of the namespace. -/
def observe (state : HangTimes) (next : NamespaceState) : HangTimes where
  ns := next
  clock := state.clock
  entered := fun i =>
    if (state.ns.lns i).counter = 0 ∧ (next.lns i).counter ≠ 0 then state.clock
    else state.entered i
  left := fun i =>
    (state.left i && !state.timerStarts next i) || decide ((next.lns i).counter = 0)

/-- The thread that an action declares hung. -/
def declares (state : HangTimes) : TimedAction → Option ReaderId
  | .tick _ => none
  | .act action => declaresHung state.ns (action.atTime state.clock)

end HangTimes

def timedStep (state : HangTimes) : TimedAction → Option HangTimes
  | .tick elapsed => some { state with clock := state.clock + elapsed }
  | .act action => (namespaceStep state.ns (action.atTime state.clock)).map state.observe

/-- The thread is in a read section, and has been for the timeout. -/
def HangTimes.Hangs (state : HangTimes) (i : ReaderId) : Prop :=
  (state.ns.lns i).counter ≠ 0 ∧ state.entered i + lrcuHangTimeout ≤ state.clock

/-- Only a thread that hangs is declared hung. -/
def OnlyHanging (state : HangTimes) (action : TimedAction) : Prop :=
  ∀ i ∈ state.declares action, state.Hangs i

/-- The thread that is declared hung has not been outside since its timer was
set. -/
def TimerCurrent (state : HangTimes) (action : TimedAction) : Prop :=
  ∀ i ∈ state.declares action, state.left i = false

/-! ## A timer of the same section -/

/-- The timer of a thread that has not been outside since it was set was set in
the section that the thread is in. -/
structure HangTimesOk (state : HangTimes) : Prop where
  past : ∀ i, state.entered i ≤ state.clock
  inside : ∀ i, (state.ns.lists.info i).timeval ≠ 0 → state.left i = false →
    (state.ns.lns i).counter ≠ 0 ∧ state.entered i ≤ (state.ns.lists.info i).timeval

theorem timeval_of_step {action : NamespaceAction} {clock : Nat}
    (stepped : namespaceStep state (action.atTime clock) = some next) (i : ReaderId) :
    (next.lists.info i).timeval = (state.lists.info i).timeval ∨
      (next.lists.info i).timeval = 0 ∨
        (state.lists.info i).timeval = 0 ∧ (next.lists.info i).timeval = clock := by
  rcases lists_of_step stepped with
    ⟨info, _⟩ | ⟨owner, loop, currentVersion, index, version, counter, rbt, now, visited, same, _,
      visits, lists⟩
  · exact Or.inl (by rw [info])
  · obtain ⟨ti, _, info⟩ := info_of_visit visits
    have read := now_of_atTime same
    rw [lists, info]
    rcases eq_or_ne i ti with rfl | other
    · rw [Function.update_self, ← read]
      exact timeval_of_visit loop currentVersion (state.lists.info i) ⟨⟨version, counter⟩, now⟩
    · exact Or.inl (by rw [Function.update_of_ne other])

namespace HangTimesOk

theorem init (workerTi : ReaderId) (ranges : Nat → LrcuRange) (clock : Nat) :
    HangTimesOk (timedInit workerTi ranges clock) where
  past _ := Nat.le_refl _
  inside _ set := absurd rfl set

theorem step {state next : HangTimes} {action : TimedAction} (ok : HangTimesOk state)
    (stepped : timedStep state action = some next) : HangTimesOk next := by
  cases action with
  | tick elapsed =>
      obtain rfl := Option.some.inj stepped
      exact ⟨fun i => (ok.past i).trans (Nat.le_add_right _ _), ok.inside⟩
  | act action =>
      obtain ⟨ns, moved, rfl⟩ := Option.map_eq_some_iff.mp stepped
      have past : ∀ i, (state.observe ns).entered i ≤ state.clock := by
        intro i
        simp only [HangTimes.observe]
        split_ifs
        · exact Nat.le_refl _
        · exact ok.past i
      refine ⟨past, fun i set stays => ?_⟩
      change (ns.lists.info i).timeval ≠ 0 at set
      simp only [HangTimes.observe, Bool.or_eq_false_iff, decide_eq_false_iff_not] at stays
      obtain ⟨before, counted⟩ := stays
      refine ⟨counted, ?_⟩
      change (state.observe ns).entered i ≤ (ns.lists.info i).timeval
      rcases timeval_of_step moved i with same | cleared | ⟨unset, read⟩
      · -- the timer runs on in the same section
        have running : state.timerStarts ns i = false := by
          simp [HangTimes.timerStarts, lrcuTimerIsset, same]
        have stayed : state.left i = false := by simpa [running] using before
        obtain ⟨active, entered⟩ := ok.inside i (same ▸ set) stayed
        rw [same]
        simpa [HangTimes.observe, active] using entered
      · exact absurd cleared set
      · exact read ▸ past i

end HangTimesOk

theorem hangTest_of_moves {currentVersion : Nat} {info : LrcuThreadInfo} {sample : Sample}
    (moves : (visitThread currentVersion info sample).moves = true) :
    hangTest info sample = true := by
  unfold visitThread at moves
  split at moves
  · exact moves
  · simp at moves

/-- The thread that is declared hung has an expired timer. -/
theorem expired_of_declaresHung {owner : PassOwner} {now : Nat} {i : ReaderId}
    (declared : declaresHung state (.pass owner (.visit now)) = some i) :
    (state.lists.info i).timeval ≠ 0 ∧ (state.lists.info i).timeval + lrcuHangTimeout ≤ now := by
  simp only [declaresHung] at declared
  split at declared
  next currentVersion index version counter rbt _ =>
    obtain ⟨ti, _, declared⟩ := Option.bind_eq_some_iff.mp declared
    obtain ⟨moves, same⟩ := Option.ite_none_right_eq_some.mp declared
    obtain rfl := Option.some.inj same
    obtain ⟨set, _, expired⟩ : (state.lists.info ti).timeval ≠ 0 ∧
        version ≤ (state.lists.info ti).hungLns.version ∧
          (state.lists.info ti).timeval + lrcuHangTimeout ≤ now := by
      simpa [hangTest, lrcuTimerIsset, and_assoc] using hangTest_of_moves moves
    exact ⟨set, expired⟩
  next => simp at declared

theorem HangTimes.expired_of_declares {state : HangTimes} {action : TimedAction} {i : ReaderId}
    (declared : i ∈ state.declares action) :
    (state.ns.lists.info i).timeval ≠ 0 ∧
      (state.ns.lists.info i).timeval + lrcuHangTimeout ≤ state.clock := by
  cases action with
  | tick elapsed => simp [HangTimes.declares] at declared
  | act action =>
      cases action with
      | pass owner own =>
          cases own with
          | visit now => exact expired_of_declaresHung declared
          | _ => simp [HangTimes.declares, NamespaceAction.atTime, declaresHung] at declared
      | _ => simp [HangTimes.declares, NamespaceAction.atTime, declaresHung] at declared

/-- In every run in which no thread is declared hung by a timer that was set
before the thread was last outside, only threads that hang are declared hung. -/
theorem only_hanging_declared {workerTi : ReaderId} {ranges : Nat → LrcuRange} {clock : Nat}
    {actions : List TimedAction}
    (current : Meets timedStep TimerCurrent (timedInit workerTi ranges clock) actions) :
    Meets timedStep OnlyHanging (timedInit workerTi ranges clock) actions := by
  apply Meets.imp_of_invariant HangTimesOk _ _ (HangTimesOk.init workerTi ranges clock) current
  · intro state action ok current i declared
    obtain ⟨set, expired⟩ := HangTimes.expired_of_declares declared
    obtain ⟨inside, entered⟩ := ok.inside i set (current i declared)
    exact ⟨inside, by omega⟩
  · exact fun state action next _ ok stepped => ok.step stepped

def actAll (actions : List NamespaceAction) : List TimedAction :=
  actions.map .act

/-- Thread `1` enters a read section. -/
def lockActions : List NamespaceAction :=
  [.reader 1 .lockCount, .reader 1 .lockTest, .reader 1 .lockStore]

/-- A call of `lrcu_synchronize_ns` and its first pass, over two threads. -/
def firstPassActions : List NamespaceAction :=
  [.enter 0 false fun _ => ⟨0, 0⟩, .caller 0] ++ passActions (.caller 0) 2

/-- A pass up to the visit of the first thread. -/
def firstLoads : List NamespaceAction :=
  [.caller 0, .pass (.caller 0) .loadVersion, .pass (.caller 0) .lockThreads,
    .pass (.caller 0) .loadLnsVersion, .pass (.caller 0) .loadLnsCounter]

/-- Thread `1` stays in its section for the timeout between two passes. -/
def hangingRun : List TimedAction :=
  actAll ([.reader 1 .lrcuThreadSetNs] ++ lockActions ++ firstPassActions) ++
    [.tick lrcuHangTimeout] ++ actAll (firstLoads ++ [.pass (.caller 0) (.visit 0)])

theorem only_hanging_declared_hangingRun :
    Meets timedStep OnlyHanging (timedInit 0 (fun _ => ⟨0, 0⟩) 1) hangingRun := by
  refine only_hanging_declared ?_
  iterate 23
    refine Meets.cons (by rintro i ⟨⟩ <;> rfl) rfl ?_
  trivial

/-- Thread `1` leaves the section in which its timer was set and enters another
one, with a new version, when the timeout has passed.  The next pass finds the
new version and records its own, and the pass behind it takes the old timer for
that of the new section. -/
def reenteringRun : List TimedAction :=
  actAll ([.reader 1 .lrcuThreadSetNs] ++ lockActions ++ firstPassActions ++
      [.reader 1 .lrcuReadUnlockNs, .writer .lrcuWriteBarrierNs]) ++
    [.tick lrcuHangTimeout] ++
    actAll (lockActions ++ [.caller 0] ++ passActions (.caller 0) 2 ++
      [.caller 0, .enter 0 false fun _ => ⟨0, 0⟩] ++ firstLoads)

theorem not_only_hanging_declared :
    ¬ ∀ (workerTi : ReaderId) (ranges : Nat → LrcuRange) (clock : Nat)
      (actions : List TimedAction),
      Meets timedStep OnlyHanging (timedInit workerTi ranges clock) actions := by
  intro only
  have meets := only 0 (fun _ => ⟨0, 0⟩) 1
    (reenteringRun ++ [.act (.pass (.caller 0) (.visit 0))])
  obtain ⟨state, ran, declared, entered, clock⟩ : ∃ state,
      run timedStep (timedInit 0 (fun _ => ⟨0, 0⟩) 1) reenteringRun = some state ∧
        state.declares (.act (.pass (.caller 0) (.visit 0))) = some 1 ∧
          state.entered 1 = 1 + lrcuHangTimeout ∧ state.clock = 1 + lrcuHangTimeout :=
    ⟨_, rfl, rfl, rfl, rfl⟩
  have hangs := ((meets.append_right ran).1 1 declared).2
  rw [entered, clock] at hangs
  exact absurd hangs (by decide)

end LightRcu
