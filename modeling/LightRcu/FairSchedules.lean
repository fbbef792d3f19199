import LightRcu.Execution

/-!
# Fair schedules

An infinite schedule names the agent that is to move next.  An agent that is
blocked at its turn lets the turn pass.  Under a fair schedule every agent has
turns again and again, and this file supplies the rule that turns a measure of
the remaining work into the arrival of a goal: no move may raise the measure,
and as long as the goal is out of reach, one agent is able to lower it and
stays the one until it is lowered.
-/

namespace LightRcu.Execution

variable {State Action : Type*}

/-- The state after the first turns of a schedule. -/
def follow (step : State → Action → Option State) (start : State)
    (schedule : Nat → Action) : Nat → State
  | 0 => start
  | turns + 1 =>
      let state := follow step start schedule turns
      (step state (schedule turns)).getD state

/-- Every action has its turn again and again. -/
def Fair (schedule : Nat → Action) : Prop :=
  ∀ action now, ∃ wait, schedule (now + wait) = action

variable {step : State → Action → Option State} {start : State}
  {schedule : Nat → Action}

theorem follow_succ_of_step {turns : Nat} {next : State}
    (stepped : step (follow step start schedule turns) (schedule turns) = some next) :
    follow step start schedule (turns + 1) = next := by
  simp only [follow, stepped, Option.getD_some]

theorem follow_succ_of_blocked {turns : Nat}
    (blocked : step (follow step start schedule turns) (schedule turns) = none) :
    follow step start schedule (turns + 1) = follow step start schedule turns := by
  simp only [follow, blocked, Option.getD_none]

theorem exists_run_follow (turns : Nat) :
    ∃ actions, run step start actions = some (follow step start schedule turns) := by
  induction turns with
  | zero => exact ⟨[], rfl⟩
  | succ turns ih =>
      obtain ⟨actions, ran⟩ := ih
      cases stepped : step (follow step start schedule turns) (schedule turns) with
      | none => exact ⟨actions, by rw [follow_succ_of_blocked stepped, ran]⟩
      | some next =>
          refine ⟨actions ++ [schedule turns], ?_⟩
          rw [follow_succ_of_step stepped]
          exact run_concat_eq_some_iff.mpr ⟨_, ran, stepped⟩

/-- The helpful agent lowers the measure at its next turn, unless the measure
has become lower before. -/
private theorem exists_lower {measure : State → Nat} {helpful : State → Action}
    (moves : ∀ now next, step (follow step start schedule now) (schedule now) = some next →
      measure next < measure (follow step start schedule now) ∨
        measure next = measure (follow step start schedule now) ∧
          helpful next = helpful (follow step start schedule now))
    (helps : ∀ now, ∃ next, step (follow step start schedule now)
      (helpful (follow step start schedule now)) = some next ∧
        measure next < measure (follow step start schedule now))
    {now wait : Nat}
    (turn : schedule (now + wait) = helpful (follow step start schedule now)) :
    ∃ later, measure (follow step start schedule later) <
      measure (follow step start schedule now) := by
  induction wait generalizing now with
  | zero =>
      obtain ⟨next, stepped, lower⟩ := helps now
      rw [← turn, Nat.add_zero] at stepped
      exact ⟨now + 1, by rw [follow_succ_of_step stepped]; exact lower⟩
  | succ wait ih =>
      have turnAfter : schedule (now + 1 + wait) = helpful (follow step start schedule now) := by
        rw [← turn, Nat.add_assoc, Nat.add_comm 1 wait]
      cases stepped : step (follow step start schedule now) (schedule now) with
      | none =>
          have stays := follow_succ_of_blocked stepped
          rw [← stays] at turnAfter ⊢
          exact ih turnAfter
      | some next =>
          have arrives := follow_succ_of_step stepped
          rcases moves now next stepped with lower | ⟨same, sameHelpful⟩
          · exact ⟨now + 1, by rw [arrives]; exact lower⟩
          · rw [← arrives] at same sameHelpful
            rw [← sameHelpful] at turnAfter
            rw [← same]
            exact ih turnAfter

/-- The rule of the helpful agent. -/
theorem Fair.reaches (fair : Fair schedule) (goal : State → Prop)
    (invariant : State → Prop) (measure : State → Nat) (helpful : State → Action)
    (preserves : ∀ state action next, invariant state →
      step state action = some next → invariant next)
    (moves : ∀ state action next, invariant state → ¬ goal state →
      step state action = some next → measure next < measure state ∨
        measure next = measure state ∧ helpful next = helpful state)
    (helps : ∀ state, invariant state → ¬ goal state →
      ∃ next, step state (helpful state) = some next ∧ measure next < measure state)
    (holds : invariant start) :
    ∃ turns, goal (follow step start schedule turns) := by
  by_contra never
  push Not at never
  have invariants : ∀ turns, invariant (follow step start schedule turns) := by
    intro turns
    have run_follow : ∃ actions, run step start actions =
        some (follow step start schedule turns) := exists_run_follow turns
    obtain ⟨actions, ran⟩ := run_follow
    exact run_preserves invariant preserves holds ran
  have lowers : ∀ now, ∃ later, measure (follow step start schedule later) <
      measure (follow step start schedule now) := by
    intro now
    obtain ⟨wait, turn⟩ := fair (helpful (follow step start schedule now)) now
    apply exists_lower _ _ turn
    · exact fun now next => moves _ _ next (invariants now) (never now)
    · exact fun now => helps _ (invariants now) (never now)
  -- no measure can be lowered for ever
  have bounded : ∀ bound now, measure (follow step start schedule now) < bound → False := by
    intro bound
    induction bound with
    | zero => exact fun now below => absurd below (Nat.not_lt_zero _)
    | succ bound ih =>
        intro now below
        obtain ⟨later, lower⟩ := lowers now
        exact ih later (by omega)
  exact bounded _ 0 (Nat.lt_succ_self _)

end LightRcu.Execution
