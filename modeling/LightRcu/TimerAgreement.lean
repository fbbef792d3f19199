import LightRcu.TimerBackEnds

/-!
# Where the two back ends agree

Both back ends go through the same passes with the same samples.  They agree as
long as no timer is started, since that of `linux.h` never is: they part at the
first visit that samples a thread of `ns->threads` in a read section.
-/

namespace LightRcu

open Execution

/-- The same passes on both back ends. -/
structure BackEnds (Ti : Type*) where
  user : TimedPass Ti Timeval
  linux : TimedPass Ti Nat

variable {Ti : Type*}

/-- One step of both, each with its own stack. -/
def backEndsStep [DecidableEq Ti] (kernel : KernelTime) (stack : TimerPointer → Timeval)
    (kernelStack : TimerPointer → Nat) (state : BackEnds Ti) (action : BackEndAction) :
    Option (BackEnds Ti) :=
  (timerPassStep userTimers stack state.user action).bind fun user =>
    (timerPassStep (linuxTimers kernel) kernelStack state.linux action).map fun linux =>
      ⟨user, linux⟩

/-- No pass has started, and all timers are as they were allocated. -/
def backEndsInit (threads hungThreads : List Ti) (hungLns : Ti → LrcuLocalNamespace) :
    BackEnds Ti where
  user := ⟨⟨threads, hungThreads, fun ti => ⟨⟨0, 0⟩, hungLns ti⟩⟩, .hungThreads,
    hungThreads.length, 0⟩
  linux := ⟨⟨threads, hungThreads, fun ti => ⟨0, hungLns ti⟩⟩, .hungThreads,
    hungThreads.length, 0⟩

/-- The answer of `LRCU_TIMER_ISSET(ti_timeval)`. -/
def timerSet {Time : Type*} (timers : TimerMacros Time) (timeval : Time) : Bool :=
  timers.isset .tiTimeval fun _ => timeval

/-- The same threads are on each list, and the same timers are set. -/
def BackEndsAgree (kernel : KernelTime) (state : BackEnds Ti) : Prop :=
  state.user.lists.threads = state.linux.lists.threads ∧
    state.user.lists.hungThreads = state.linux.lists.hungThreads ∧
    ∀ ti, timerSet userTimers (state.user.lists.info ti).timeval =
      timerSet (linuxTimers kernel) (state.linux.lists.info ti).timeval

/-- A visit of `ns->threads` samples its thread outside of read sections, or at
the time `0`. -/
def StartsNoTimer (state : BackEnds Ti) : BackEndAction → Prop
  | .visit sample =>
      state.user.loop = .threads → state.user.index < state.user.lists.threads.length →
        sample.lns.counter = 0 ∨ sample.now = 0
  | _ => True

/-! ## One visit -/

/-- The macros of `linux.h` change no timer and find no thread to hang. -/
theorem visitThreadTimed_linux (kernel : KernelTime) (stack : TimerPointer → Nat)
    (currentVersion : Nat) (info : TimedInfo Nat) (sample : Sample) :
    (visitThreadTimed (linuxTimers kernel) stack currentVersion info sample).info =
        { info with hungLns :=
            if sample.lns.counter ≠ 0 then { sample.lns with version := currentVersion }
            else info.hungLns } ∧
      (visitThreadTimed (linuxTimers kernel) stack currentVersion info sample).moves = false := by
  by_cases active : sample.lns.counter = 0 <;>
    simp [visitThreadTimed, testTimer, linuxTimers, active]

theorem visitThreadTimed_user_unset (stack : TimerPointer → Timeval) (currentVersion : Nat)
    {info : TimedInfo Timeval} (sample : Sample) (unset : info.timeval = ⟨0, 0⟩) :
    (visitThreadTimed userTimers stack currentVersion info sample).info =
        { timeval := if sample.lns.counter ≠ 0 then gettimeofday sample.now else ⟨0, 0⟩
          hungLns :=
            if sample.lns.counter ≠ 0 then { sample.lns with version := currentVersion }
            else info.hungLns } ∧
      (visitThreadTimed userTimers stack currentVersion info sample).moves = false := by
  by_cases active : sample.lns.counter = 0 <;>
    simp [visitThreadTimed, testTimer, userTimers, timerisset, active, unset]

/-! ## Both in step -/

/-- The back ends differ in nothing but the times, and no timer is set. -/
structure InStep (state : BackEnds Ti) : Prop where
  walked : ∀ loop, state.user.lists.walked loop = state.linux.lists.walked loop
  hungLns : ∀ ti, (state.user.lists.info ti).hungLns = (state.linux.lists.info ti).hungLns
  loop : state.user.loop = state.linux.loop
  index : state.user.index = state.linux.index
  currentVersion : state.user.currentVersion = state.linux.currentVersion
  unset : ∀ ti, (state.user.lists.info ti).timeval = ⟨0, 0⟩

variable {kernel : KernelTime} {stack : TimerPointer → Timeval} {kernelStack : TimerPointer → Nat}
  {state next : BackEnds Ti} {action : BackEndAction}

theorem inStep_init (threads hungThreads : List Ti) (hungLns : Ti → LrcuLocalNamespace) :
    InStep (backEndsInit threads hungThreads hungLns) where
  walked _ := by rfl
  hungLns _ := rfl
  loop := rfl
  index := rfl
  currentVersion := rfl
  unset _ := rfl

theorem InStep.agree (inStep : InStep state) (kernel : KernelTime) :
    BackEndsAgree kernel state := by
  refine ⟨inStep.walked .threads, inStep.walked .hungThreads, fun ti => ?_⟩
  rw [inStep.unset ti]
  rfl

private theorem visits_agree (kernel : KernelTime) (stack : TimerPointer → Timeval)
    (kernelStack : TimerPointer → Nat) (ti : Ti) (inStep : InStep state) {sample : Sample}
    (startsNone : state.user.loop = .threads → sample.lns.counter = 0 ∨ sample.now = 0) :
    let user := state.user.loop.visitTimed userTimers stack state.user.currentVersion
      (state.user.lists.info ti) sample
    let linux := state.linux.loop.visitTimed (linuxTimers kernel) kernelStack
      state.linux.currentVersion (state.linux.lists.info ti) sample
    user.moves = linux.moves ∧ user.info.hungLns = linux.info.hungLns ∧
      user.info.timeval = ⟨0, 0⟩ := by
  rw [← inStep.loop, ← inStep.currentVersion]
  have sameHungLns := inStep.hungLns ti
  cases loop : state.user.loop with
  | threads =>
      obtain ⟨userInfo, userStays⟩ := visitThreadTimed_user_unset stack
        state.user.currentVersion sample (inStep.unset ti)
      obtain ⟨linuxInfo, linuxStays⟩ := visitThreadTimed_linux kernel kernelStack
        state.user.currentVersion (state.linux.lists.info ti) sample
      simp only [PassLoop.visitTimed]
      rw [userInfo, userStays, linuxInfo, linuxStays]
      refine ⟨rfl, by rw [sameHungLns], ?_⟩
      rcases startsNone loop with idle | early
      · simp [idle]
      · simp [early, gettimeofday]
  | hungThreads =>
      simp only [PassLoop.visitTimed, visitHungThreadTimed, visitHungThread]
      rw [sameHungLns]
      exact ⟨rfl, rfl, inStep.unset ti⟩

variable [DecidableEq Ti]

private theorem InStep.of_visits (inStep : InStep state) {ti : Ti}
    {userVisit : TimedVisit Timeval} {linuxVisit : TimedVisit Nat}
    (moves : userVisit.moves = linuxVisit.moves)
    (sameHungLns : userVisit.info.hungLns = linuxVisit.info.hungLns)
    (unset : userVisit.info.timeval = ⟨0, 0⟩)
    (user : next.user =
      let lists := { state.user.lists with
        info := Function.update state.user.lists.info ti userVisit.info }
      if userVisit.moves then
        { state.user with lists := lists.move state.user.index ti state.user.loop }
      else { state.user with lists := lists, index := state.user.index + 1 })
    (linux : next.linux =
      let lists := { state.linux.lists with
        info := Function.update state.linux.lists.info ti linuxVisit.info }
      if linuxVisit.moves then
        { state.linux with lists := lists.move state.linux.index ti state.linux.loop }
      else { state.linux with lists := lists, index := state.linux.index + 1 }) :
    InStep next := by
  have hungLns : ∀ ti', (Function.update state.user.lists.info ti userVisit.info ti').hungLns =
      (Function.update state.linux.lists.info ti linuxVisit.info ti').hungLns := by
    intro ti'
    rcases eq_or_ne ti' ti with rfl | other
    · simpa using sameHungLns
    · simpa [other] using inStep.hungLns ti'
  have unsets : ∀ ti', (Function.update state.user.lists.info ti userVisit.info ti').timeval =
      ⟨0, 0⟩ := by
    intro ti'
    rcases eq_or_ne ti' ti with rfl | other
    · simpa using unset
    · simpa [other] using inStep.unset ti'
  obtain ⟨nextUser, nextLinux⟩ := next
  rw [← moves] at linux
  subst user linux
  cases userVisit.moves with
  | false =>
      exact {
        walked := inStep.walked
        hungLns := hungLns
        loop := inStep.loop
        index := congrArg (· + 1) inStep.index
        currentVersion := inStep.currentVersion
        unset := unsets }
  | true =>
      refine {
        walked := fun loop => ?_
        hungLns := by simpa using hungLns
        loop := inStep.loop
        index := inStep.index
        currentVersion := inStep.currentVersion
        unset := by simpa using unsets }
      have same := inStep.walked loop
      simp only [if_true, TimedLists.walked_move, ← inStep.loop, ← inStep.index]
      split_ifs
      · exact congrArg (List.eraseIdx · state.user.index) same
      · exact congrArg (ti :: ·) same

theorem InStep.step (inStep : InStep state) (startsNone : StartsNoTimer state action)
    (stepped : backEndsStep kernel stack kernelStack state action = some next) :
    InStep next := by
  obtain ⟨user, userStep, stepped⟩ := Option.bind_eq_some_iff.mp stepped
  obtain ⟨linux, linuxStep, rfl⟩ := Option.map_eq_some_iff.mp stepped
  cases action with
  | start currentVersion =>
      simp only [timerPassStep, Option.ite_none_right_eq_some, Option.some.injEq]
        at userStep linuxStep
      obtain ⟨_, rfl⟩ := userStep
      obtain ⟨_, rfl⟩ := linuxStep
      exact { inStep with loop := rfl, index := rfl, currentVersion := rfl }
  | nextLoop =>
      simp only [timerPassStep, Option.ite_none_right_eq_some, Option.some.injEq]
        at userStep linuxStep
      obtain ⟨_, rfl⟩ := userStep
      obtain ⟨_, rfl⟩ := linuxStep
      exact { inStep with loop := rfl, index := rfl }
  | visit sample =>
      obtain ⟨ti, found, user'⟩ := (timerPassStep_visit_iff _ _ _).mp userStep
      obtain ⟨ti', found', linux'⟩ := (timerPassStep_visit_iff _ _ _).mp linuxStep
      rw [← inStep.loop, ← inStep.walked, ← inStep.index, found] at found'
      obtain rfl := Option.some.inj found'
      have none : state.user.loop = .threads → sample.lns.counter = 0 ∨ sample.now = 0 := by
        intro loop
        rw [loop] at found
        exact startsNone loop (List.getElem?_eq_some_iff.mp found).1
      obtain ⟨moves, sameHungLns, unset⟩ := visits_agree kernel stack kernelStack ti inStep none
      exact inStep.of_visits moves sameHungLns unset user' linux'

theorem InStep.startsNoTimer (inStep : InStep state)
    (agree : ∀ next, backEndsStep kernel stack kernelStack state action = some next →
      BackEndsAgree kernel next) : StartsNoTimer state action := by
  cases action with
  | start currentVersion => trivial
  | nextLoop => trivial
  | visit sample =>
      intro loop inside
      by_contra starts
      obtain ⟨active, late⟩ := not_or.mp starts
      obtain ⟨ti, found⟩ : ∃ ti,
          (state.user.lists.walked state.user.loop)[state.user.index]? = some ti := by
        rw [loop]
        exact ⟨_, List.getElem?_eq_getElem inside⟩
      have found' := found
      rw [inStep.walked, inStep.loop, inStep.index] at found'
      obtain ⟨userInfo, userStays⟩ := visitThreadTimed_user_unset stack
        state.user.currentVersion sample (inStep.unset ti)
      have userStep := (timerPassStep_visit_iff userTimers stack sample).mpr ⟨ti, found, rfl⟩
      have linuxStep := (timerPassStep_visit_iff (linuxTimers kernel) kernelStack sample).mpr
        ⟨ti, found', rfl⟩
      have same := (agree _ (Option.bind_eq_some_iff.mpr
        ⟨_, userStep, Option.map_eq_some_iff.mpr ⟨_, linuxStep, rfl⟩⟩)).2.2 ti
      have unset : ∀ timeval, timerSet (linuxTimers kernel) timeval = false := fun _ => rfl
      rw [unset] at same
      simp only [loop, PassLoop.visitTimed, userStays, userInfo, ne_eq, active,
        not_false_eq_true, if_true, Bool.false_eq_true, if_false, Function.update_self] at same
      have set : timerSet userTimers (gettimeofday sample.now) = true := by
        change timerisset (gettimeofday sample.now) = true
        rw [timerisset_eq, usecs_gettimeofday, lrcuTimerIsset]
        simpa using late
      exact absurd (set.symm.trans same) (by simp)

/-- The back ends agree throughout a sequence of passes exactly when no visit of
`ns->threads` samples a thread in a read section at a time other than `0`. -/
theorem backEnds_agree_iff (kernel : KernelTime) (stack : TimerPointer → Timeval)
    (kernelStack : TimerPointer → Nat) (threads hungThreads : List Ti)
    (hungLns : Ti → LrcuLocalNamespace) (actions : List BackEndAction) :
    Throughout (backEndsStep kernel stack kernelStack) (BackEndsAgree kernel)
        (backEndsInit threads hungThreads hungLns) actions ↔
      Meets (backEndsStep kernel stack kernelStack) StartsNoTimer
        (backEndsInit threads hungThreads hungLns) actions := by
  apply throughout_iff_meets InStep
  · exact fun state inStep => inStep.agree kernel
  · exact fun state action next startsNone inStep stepped => inStep.step startsNone stepped
  · exact fun state action inStep agree => inStep.startsNoTimer agree
  · exact inStep_init threads hungThreads hungLns

/-- The clock readings of the visits, in order. -/
def clockReadings : List BackEndAction → List Nat
  | [] => []
  | .visit sample :: rest => sample.now :: clockReadings rest
  | _ :: rest => clockReadings rest

/-- A thread stays in a read section from one pass to another, with the timeout
in between. -/
def hangingPasses : List BackEndAction :=
  [.start 1, .visit ⟨⟨1, 1⟩, 1⟩, .nextLoop,
    .start 1, .visit ⟨⟨1, 1⟩, lrcuHangTimeout + 1⟩]

/-- With `user.h` the thread is moved to `hung_threads`, with `linux.h` it is
not. -/
theorem not_backEnds_agree :
    ¬ ∀ (kernel : KernelTime) (stack : TimerPointer → Timeval)
      (kernelStack : TimerPointer → Nat) (threads hungThreads : List Nat)
      (hungLns : Nat → LrcuLocalNamespace) (actions : List BackEndAction),
      (clockReadings actions).Pairwise (· ≤ ·) →
      Throughout (backEndsStep kernel stack kernelStack) (BackEndsAgree kernel)
        (backEndsInit threads hungThreads hungLns) actions := by
  intro always
  let kernel : KernelTime := ⟨id, id, id, fun _ _ => false⟩
  have agree := always kernel (fun _ => ⟨0, 0⟩) (fun _ => 0) [7] [] (fun _ => ⟨0, 0⟩)
    hangingPasses (by decide)
  have hung : (run (backEndsStep kernel (fun _ => ⟨0, 0⟩) fun _ => 0)
      (backEndsInit [7] [] fun _ => ⟨0, 0⟩) hangingPasses).map
        (fun final => (final.user.lists.hungThreads, final.linux.lists.hungThreads)) =
      some ([7], []) := by decide +kernel
  obtain ⟨final, ran, lists⟩ := Option.map_eq_some_iff.mp hung
  have same := (agree hangingPasses [] final (List.append_nil _).symm ran).2.1
  rw [(Prod.mk.inj lists).1, (Prod.mk.inj lists).2] at same
  exact absurd same (by simp)

end LightRcu
