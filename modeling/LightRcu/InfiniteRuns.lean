import LightRcu.Execution
import Mathlib.Data.List.Induction
import Mathlib.Order.WellFounded

/-!
# Infinite runs

An infinite run takes a step at every moment.  This file supplies the rule by
which an agent that takes steps of its own again and again reaches a goal: its
own steps lower a rank in a well-founded order, and the steps of all others do
not raise it.
-/

namespace LightRcu.Execution

variable {State Action : Type*}

/-- A system that may rest, and keeps its state then. -/
def resting (step : State → Action → Option State) : State → Option Action → Option State
  | state, none => some state
  | state, some action => step state action

structure InfiniteRun (step : State → Action → Option State) where
  states : Nat → State
  actions : Nat → Action
  steps : ∀ now, step (states now) (actions now) = some (states (now + 1))

namespace InfiniteRun

variable {step : State → Action → Option State} (infinite : InfiniteRun step)

/-- A run that never rests. -/
def restless : InfiniteRun (resting step) where
  states := infinite.states
  actions now := some (infinite.actions now)
  steps := infinite.steps

/-- From some moment on, the agent that takes these actions takes another one
whenever the goal is not reached. -/
def RecursUntil (start : Nat) (goal : State → Prop) (own : Action → Prop) : Prop :=
  ∀ now, start ≤ now → ¬ goal (infinite.states now) →
    ∃ wait, own (infinite.actions (now + wait))

/-- An agent that can take steps of its own from some moment on takes one. -/
def WeaklyFair (enabled : State → Prop) (own : Action → Prop) : Prop :=
  ∀ start, (∀ now, start ≤ now → enabled (infinite.states now)) →
    ∃ wait, own (infinite.actions (start + wait))

/-- Every step from some moment on meets a condition. -/
def MeetsFrom (start : Nat) (condition : State → Action → Prop) : Prop :=
  ∀ now, start ≤ now → condition (infinite.states now) (infinite.actions now)

/-- Every step from some moment on and before another one meets a condition. -/
def MeetsWithin (start stop : Nat) (condition : State → Action → Prop) : Prop :=
  ∀ now, start ≤ now → now < stop → condition (infinite.states now) (infinite.actions now)

variable {infinite}

theorem rests_or_steps (infinite : InfiniteRun (resting step)) (now : Nat) :
    infinite.states (now + 1) = infinite.states now ∨
      ∃ action, infinite.actions now = some action ∧
        step (infinite.states now) action = some (infinite.states (now + 1)) := by
  have stepped := infinite.steps now
  cases taken : infinite.actions now with
  | none =>
      rw [taken] at stepped
      exact Or.inl (Option.some.inj stepped).symm
  | some action =>
      rw [taken] at stepped
      exact Or.inr ⟨action, rfl, stepped⟩

theorem RecursUntil.later {start now : Nat} {goal : State → Prop} {own : Action → Prop}
    (recurs : infinite.RecursUntil start goal own) (later : start ≤ now) :
    infinite.RecursUntil now goal own :=
  fun after le => recurs after (later.trans le)

theorem MeetsFrom.and {start : Nat} {first second : State → Action → Prop}
    (meets : infinite.MeetsFrom start first) (meets' : infinite.MeetsFrom start second) :
    infinite.MeetsFrom start fun state action => first state action ∧ second state action :=
  fun now le => ⟨meets now le, meets' now le⟩

theorem MeetsFrom.later {start now : Nat} {condition : State → Action → Prop}
    (meets : infinite.MeetsFrom start condition) (later : start ≤ now) :
    infinite.MeetsFrom now condition :=
  fun after le => meets after (later.trans le)

theorem MeetsWithin.mono {start stop after before : Nat} {condition : State → Action → Prop}
    (meets : infinite.MeetsWithin start stop condition) (later : start ≤ after)
    (earlier : before ≤ stop) : infinite.MeetsWithin after before condition :=
  fun now le less => meets now (later.trans le) (less.trans_le earlier)

theorem invariant_within {condition : State → Action → Prop} (invariant : State → Prop)
    (preserves : ∀ state action next, condition state action → invariant state →
      step state action = some next → invariant next)
    {start stop : Nat} (meets : infinite.MeetsWithin start stop condition)
    (holds : invariant (infinite.states start)) (le : start ≤ stop) :
    invariant (infinite.states stop) := by
  induction stop, le using Nat.le_induction with
  | base => exact holds
  | succ now le ih =>
      have before := ih (meets.mono le_rfl (Nat.le_succ now))
      exact preserves _ _ _ (meets now le (Nat.lt_succ_self now)) before (infinite.steps now)

theorem invariant_from {condition : State → Action → Prop} (invariant : State → Prop)
    (preserves : ∀ state action next, condition state action → invariant state →
      step state action = some next → invariant next)
    {start now : Nat} (meets : infinite.MeetsFrom start condition)
    (holds : invariant (infinite.states start)) (le : start ≤ now) :
    invariant (infinite.states now) :=
  invariant_within invariant preserves (fun earlier after _ => meets earlier after) holds le

theorem invariant_always (invariant : State → Prop)
    (preserves : ∀ state action next, invariant state → step state action = some next →
      invariant next)
    (holds : invariant (infinite.states 0)) (now : Nat) : invariant (infinite.states now) := by
  induction now with
  | zero => exact holds
  | succ now ih => exact preserves _ _ _ ih (infinite.steps now)

/-- What only the steps of an agent can end holds when it takes one. -/
theorem holds_until (own : Action → Prop) (property : State → Prop) {start wait : Nat}
    (stays : ∀ now, property (infinite.states now) → ¬ own (infinite.actions now) →
      property (infinite.states (now + 1)))
    (holds : property (infinite.states start)) (turn : own (infinite.actions (start + wait))) :
    ∃ later, start ≤ later ∧ property (infinite.states later) ∧
      own (infinite.actions later) := by
  induction wait generalizing start with
  | zero => exact ⟨start, le_rfl, holds, turn⟩
  | succ wait ih =>
      by_cases here : own (infinite.actions start)
      · exact ⟨start, le_rfl, holds, here⟩
      · have turnNext : own (infinite.actions (start + 1 + wait)) := by
          rwa [Nat.add_assoc, Nat.add_comm 1 wait]
        obtain ⟨later, le, holdsLater, own⟩ := ih (stays start holds here) turnNext
        exact ⟨later, (Nat.le_succ start).trans le, holdsLater, own⟩

section Rank

variable {Rank : Type*} [Preorder Rank] {rank : State → Rank} {own : Action → Prop}
  {condition : State → Action → Prop} {goal invariant : State → Prop}

private theorem lower_or_goal
    (moves : ∀ state action next, condition state action → invariant state →
      step state action = some next →
        goal next ∨ invariant next ∧ rank next ≤ rank state ∧
          (own action → rank next < rank state))
    {wait start : Nat} (meets : infinite.MeetsFrom start condition)
    (holds : invariant (infinite.states start)) (turn : own (infinite.actions (start + wait))) :
    (∃ later, start ≤ later ∧ goal (infinite.states later)) ∨
      ∃ later, start ≤ later ∧ invariant (infinite.states later) ∧
        rank (infinite.states later) < rank (infinite.states start) := by
  induction wait generalizing start with
  | zero =>
      rcases moves _ _ _ (meets start le_rfl) holds (infinite.steps start) with
        arrived | ⟨holdsNext, _, lower⟩
      · exact Or.inl ⟨start + 1, Nat.le_succ start, arrived⟩
      · exact Or.inr ⟨start + 1, Nat.le_succ start, holdsNext, lower turn⟩
  | succ wait ih =>
      rcases moves _ _ _ (meets start le_rfl) holds (infinite.steps start) with
        arrived | ⟨holdsNext, notHigher, _⟩
      · exact Or.inl ⟨start + 1, Nat.le_succ start, arrived⟩
      · have turnNext : own (infinite.actions (start + 1 + wait)) := by
          rwa [Nat.add_assoc, Nat.add_comm 1 wait]
        rcases ih (meets.later (Nat.le_succ start)) holdsNext turnNext with
          ⟨later, le, arrived⟩ | ⟨later, le, holdsLater, lower⟩
        · exact Or.inl ⟨later, by omega, arrived⟩
        · exact Or.inr ⟨later, by omega, holdsLater, lower.trans_le notHigher⟩

/-- The rule of the recurring agent. -/
theorem reaches [WellFoundedLT Rank] (goal invariant : State → Prop) (rank : State → Rank)
    (moves : ∀ state action next, condition state action → invariant state →
      step state action = some next →
        goal next ∨ invariant next ∧ rank next ≤ rank state ∧
          (own action → rank next < rank state))
    {start : Nat} (recurs : infinite.RecursUntil start goal own)
    (meets : infinite.MeetsFrom start condition)
    (holds : invariant (infinite.states start)) :
    ∃ later, start ≤ later ∧ goal (infinite.states later) := by
  induction height : rank (infinite.states start) using WellFoundedLT.induction
    generalizing start with
  | ind height ih =>
      subst height
      by_cases here : goal (infinite.states start)
      · exact ⟨start, le_rfl, here⟩
      obtain ⟨wait, turn⟩ := recurs start le_rfl here
      rcases lower_or_goal moves meets holds turn with
        ⟨later, le, arrived⟩ | ⟨later, le, holdsLater, lower⟩
      · exact ⟨later, le, arrived⟩
      · obtain ⟨last, le', arrived⟩ := ih _ lower (recurs.later le) (meets.later le) holdsLater rfl
        exact ⟨last, le.trans le', arrived⟩

end Rank

/-! ## Infinite runs with a given beginning -/

/-- The infinite run that begins with one step more. -/
def cons {state : State} {action : Action} (rest : InfiniteRun step)
    (stepped : step state action = some (rest.states 0)) : InfiniteRun step where
  states
    | 0 => state
    | now + 1 => rest.states now
  actions
    | 0 => action
    | now + 1 => rest.actions now
  steps
    | 0 => stepped
    | now + 1 => rest.steps now

theorem exists_append {state : State} {actions : List Action} (rest : InfiniteRun step)
    (ran : run step state actions = some (rest.states 0)) :
    ∃ infinite : InfiniteRun step, infinite.states 0 = state ∧
      (∀ index action, actions[index]? = some action → infinite.actions index = action) ∧
        ∀ now, infinite.states (actions.length + now) = rest.states now ∧
          infinite.actions (actions.length + now) = rest.actions now := by
  induction actions generalizing state with
  | nil =>
      rw [run_nil, Option.some.injEq] at ran
      exact ⟨rest, ran.symm, by simp, by simp⟩
  | cons action actions ih =>
      obtain ⟨next, stepped, ran⟩ := run_cons_eq_some_iff.mp ran
      obtain ⟨infinite, begins, listed, follows⟩ := ih ran
      refine ⟨infinite.cons (begins ▸ stepped), rfl, fun index other found => ?_, fun now => ?_⟩
      · cases index with
        | zero => exact Option.some.inj found
        | succ index => exact listed index other (by simpa using found)
      · rw [List.length_cons, Nat.add_right_comm]
        exact follows now

theorem exists_of_schedule {actions : Nat → Action} {invariant : Nat → State → Prop}
    (goes : ∀ now state, invariant now state → ∃ next,
      step state (actions now) = some next ∧ invariant (now + 1) next)
    {start : State} (begins : invariant 0 start) :
    ∃ infinite : InfiniteRun step, infinite.states 0 = start ∧ infinite.actions = actions ∧
      ∀ now, invariant now (infinite.states now) := by
  classical
  let states : (now : Nat) → { state : State // invariant now state } := fun now =>
    Nat.rec ⟨start, begins⟩ (fun now state =>
      ⟨Classical.choose (goes now state.1 state.2),
        (Classical.choose_spec (goes now state.1 state.2)).2⟩) now
  have steps : ∀ now, step (states now).1 (actions now) = some (states (now + 1)).1 := by
    intro now
    exact (Classical.choose_spec (goes now (states now).1 (states now).2)).1
  exact ⟨⟨fun now => (states now).1, actions, steps⟩, rfl, rfl, fun now => (states now).2⟩

theorem exists_of_rounds {block : List Action} (nonempty : 0 < block.length)
    {between : State → Prop}
    (rounds : ∀ state, between state → ∃ next, run step state block = some next ∧ between next)
    {start : State} (begins : between start) :
    ∃ infinite : InfiniteRun step, infinite.states 0 = start ∧
      ∀ now, block[now % block.length]? = some (infinite.actions now) := by
  have inside : ∀ now, now % block.length < block.length := fun now => Nat.mod_lt now nonempty
  let actions : Nat → Action := fun now => block.get ⟨now % block.length, inside now⟩
  have listed : ∀ now, block[now % block.length]? = some (actions now) := fun now =>
    List.getElem?_eq_getElem (inside now)
  let invariant : Nat → State → Prop := fun now state =>
    ∃ final, run step state (block.drop (now % block.length)) = some final ∧ between final
  obtain ⟨infinite, starts, same, _⟩ : ∃ infinite : InfiniteRun step,
      infinite.states 0 = start ∧ infinite.actions = actions ∧
        ∀ now, invariant now (infinite.states now) := by
    refine exists_of_schedule (fun now state holds => ?_) ?_
    · obtain ⟨final, ran, left⟩ := holds
      have split : block.drop (now % block.length) =
          actions now :: block.drop (now % block.length + 1) :=
        List.drop_eq_getElem_cons (inside now)
      rw [split] at ran
      obtain ⟨next, stepped, ran⟩ := run_cons_eq_some_iff.mp ran
      refine ⟨next, stepped, ?_⟩
      by_cases last : now % block.length + 1 < block.length
      · have follows : (now + 1) % block.length = now % block.length + 1 := by
          rw [Nat.add_mod, Nat.mod_eq_of_lt (Nat.lt_of_le_of_lt (Nat.le_add_left 1 _) last),
            Nat.mod_eq_of_lt last]
        exact ⟨final, by rwa [follows], left⟩
      · have ends : now % block.length + 1 = block.length := by
          have := inside now
          omega
        have restarts : (now + 1) % block.length = 0 := by
          rw [← Nat.mod_add_mod, ends, Nat.mod_self]
        rw [ends, List.drop_length, run_nil, Option.some.injEq] at ran
        subst ran
        obtain ⟨final, ran, left⟩ := rounds next left
        exact ⟨final, by rwa [restarts, List.drop_zero], left⟩
    · obtain ⟨final, ran, left⟩ := rounds start begins
      exact ⟨final, by rwa [Nat.zero_mod, List.drop_zero], left⟩
  exact ⟨infinite, starts, fun now => by rw [same]; exact listed now⟩

theorem states_of_run {actions : List Action} {final : State}
    (listed : ∀ index action, actions[index]? = some action → infinite.actions index = action)
    (ran : run step (infinite.states 0) actions = some final) :
    infinite.states actions.length = final := by
  induction actions using List.reverseRec generalizing final with
  | nil =>
      rw [run_nil, Option.some.injEq] at ran
      exact ran
  | append_singleton actions action ih =>
      obtain ⟨middle, ranMiddle, stepped⟩ := run_concat_eq_some_iff.mp ran
      have before : infinite.states actions.length = middle := by
        apply ih _ ranMiddle
        intro index other found
        apply listed
        rw [List.getElem?_append_left (List.getElem?_eq_some_iff.mp found).1]
        exact found
      have last : infinite.actions actions.length = action := listed _ _ (by simp)
      have follows := infinite.steps actions.length
      rw [before, last, stepped, Option.some.injEq] at follows
      rw [List.length_append, List.length_singleton]
      exact follows.symm

/-- An agent that takes the last step before the goal is reached for good. -/
theorem recursUntil_of_last {actions : List Action} {last : Action} {goal : State → Prop}
    {own : Action → Prop}
    (listed : ∀ index action, (actions ++ [last])[index]? = some action →
      infinite.actions index = action)
    (takes : own last) (arrives : ∀ now, actions.length < now → goal (infinite.states now)) :
    infinite.RecursUntil 0 goal own := by
  intro now _ away
  have early : now ≤ actions.length := by
    by_contra later
    exact away (arrives now (by omega))
  obtain ⟨wait, turn⟩ := Nat.exists_eq_add_of_le early
  refine ⟨wait, ?_⟩
  rw [← turn, listed actions.length last (by simp)]
  exact takes

end InfiniteRun

end LightRcu.Execution
