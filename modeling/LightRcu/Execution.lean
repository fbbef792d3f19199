import Mathlib.Data.List.Basic
import Mathlib.Data.Option.Basic

/-!
# Finite runs of labelled partial step functions

A system of interleaved agents is given by a partial function that takes a
state and the label of the next action, and returns the successor state when
that action is enabled.  A run follows a list of labels.  This file supplies
the composition of runs, reachable states, and the rules that carry an
invariant from one step to a whole run.
-/

namespace LightRcu.Execution

variable {State Action : Type*}

/-- Follow a list of actions, failing as soon as one of them is not enabled. -/
def run (step : State → Action → Option State) :
    State → List Action → Option State
  | state, [] => some state
  | state, action :: rest =>
      (step state action).bind fun next => run step next rest

variable {step : State → Action → Option State}

@[simp]
theorem run_nil (state : State) : run step state [] = some state :=
  rfl

theorem run_cons_eq_some_iff {state final : State} {action : Action}
    {rest : List Action} :
    run step state (action :: rest) = some final ↔
      ∃ next, step state action = some next ∧ run step next rest = some final := by
  simp only [run]
  exact Option.bind_eq_some_iff

/-- A run splits at any point of its list of actions. -/
theorem run_append (state : State) (first second : List Action) :
    run step state (first ++ second) =
      (run step state first).bind fun middle => run step middle second := by
  induction first generalizing state with
  | nil => rfl
  | cons action rest ih =>
      simp only [List.cons_append, run]
      cases stepped : step state action with
      | none => rfl
      | some next => simpa only [Option.bind_some] using ih next

theorem run_concat_eq_some_iff {state final : State} {action : Action}
    {front : List Action} :
    run step state (front ++ [action]) = some final ↔
      ∃ middle, run step state front = some middle ∧
        step middle action = some final := by
  rw [run_append, Option.bind_eq_some_iff]
  simp [run]

/-- A state that some run from an initial state ends in. -/
def Reachable (initial : State → Prop) (step : State → Action → Option State)
    (state : State) : Prop :=
  ∃ start actions, initial start ∧ run step start actions = some state

namespace Reachable

variable {initial : State → Prop}

theorem step_of {state next : State} {action : Action}
    (reachable : Reachable initial step state)
    (stepped : step state action = some next) :
    Reachable initial step next := by
  obtain ⟨start, actions, starts, ran⟩ := reachable
  exact ⟨start, actions ++ [action], starts,
    run_concat_eq_some_iff.mpr ⟨state, ran, stepped⟩⟩

end Reachable

/-- A property kept by every step is kept by every run. -/
theorem run_preserves (invariant : State → Prop)
    (preserves : ∀ state action next, invariant state →
      step state action = some next → invariant next)
    {state final : State} {actions : List Action}
    (holds : invariant state) (ran : run step state actions = some final) :
    invariant final := by
  induction actions generalizing state with
  | nil =>
      simp only [run_nil, Option.some.injEq] at ran
      exact ran ▸ holds
  | cons action rest ih =>
      obtain ⟨next, stepped, ran⟩ := run_cons_eq_some_iff.mp ran
      exact ih (preserves state action next holds stepped) ran

/-- The invariant rule: an invariant that holds initially and is kept by every
step holds in every reachable state. -/
theorem Reachable.invariant {initial : State → Prop} (invariant : State → Prop)
    (starts : ∀ state, initial state → invariant state)
    (preserves : ∀ state action next, invariant state →
      step state action = some next → invariant next)
    {state : State} (reachable : Reachable initial step state) :
    invariant state := by
  obtain ⟨start, actions, initially, ran⟩ := reachable
  exact run_preserves invariant preserves (starts start initially) ran

/-- Every step that the run takes meets a condition on the state it is taken
in and on its label. -/
def Meets (step : State → Action → Option State)
    (condition : State → Action → Prop) : State → List Action → Prop
  | _, [] => True
  | state, action :: rest =>
      condition state action ∧
        ∀ next, step state action = some next → Meets step condition next rest

theorem Meets.cons {condition : State → Action → Prop} {state next : State}
    {action : Action} {rest : List Action} (met : condition state action)
    (stepped : step state action = some next) (later : Meets step condition next rest) :
    Meets step condition state (action :: rest) :=
  ⟨met, fun _ other => Option.some.inj (stepped.symm.trans other) ▸ later⟩

theorem Meets.imp {first second : State → Action → Prop} {state : State} {actions : List Action}
    (implies : ∀ state action, first state action → second state action)
    (meets : Meets step first state actions) : Meets step second state actions := by
  induction actions generalizing state with
  | nil => trivial
  | cons action rest ih =>
      exact ⟨implies state action meets.1, fun next stepped => ih (meets.2 next stepped)⟩

theorem Meets.and {first second : State → Action → Prop} {state : State}
    {actions : List Action} (meets : Meets step first state actions)
    (meets' : Meets step second state actions) :
    Meets step (fun state action => first state action ∧ second state action) state actions := by
  induction actions generalizing state with
  | nil => trivial
  | cons action rest ih =>
      exact ⟨⟨meets.1, meets'.1⟩, fun next stepped =>
        ih (meets.2 next stepped) (meets'.2 next stepped)⟩

theorem Meets.append_left {condition : State → Action → Prop}
    {state : State} {first second : List Action}
    (meets : Meets step condition state (first ++ second)) :
    Meets step condition state first := by
  induction first generalizing state with
  | nil => trivial
  | cons action rest ih =>
      exact ⟨meets.1, fun next stepped => ih (meets.2 next stepped)⟩

theorem Meets.append_right {condition : State → Action → Prop}
    {state middle : State} {first second : List Action}
    (meets : Meets step condition state (first ++ second))
    (ran : run step state first = some middle) :
    Meets step condition middle second := by
  induction first generalizing state with
  | nil =>
      simp only [run_nil, Option.some.injEq] at ran
      exact ran ▸ meets
  | cons action rest ih =>
      obtain ⟨next, stepped, ran⟩ := run_cons_eq_some_iff.mp ran
      exact ih (meets.2 next stepped) ran

theorem Meets.of_split {condition : State → Action → Prop}
    {state : State} {actions : List Action}
    (met : ∀ front action back middle, actions = front ++ action :: back →
      run step state front = some middle → condition middle action) :
    Meets step condition state actions := by
  induction actions generalizing state with
  | nil => trivial
  | cons action rest ih =>
      refine ⟨met [] action rest state rfl rfl, fun next stepped => ih ?_⟩
      intro front later back middle split ran
      exact met (action :: front) later back middle (by rw [split, List.cons_append])
        (run_cons_eq_some_iff.mpr ⟨next, stepped, ran⟩)

theorem Meets.of_forall {condition : State → Action → Prop} {state : State}
    {actions : List Action} (always : ∀ action ∈ actions, ∀ state, condition state action) :
    Meets step condition state actions := by
  refine Meets.of_split fun front action back middle split _ => always action ?_ middle
  exact split ▸ List.mem_append_right front List.mem_cons_self

theorem Meets.append {condition : State → Action → Prop} {state middle : State}
    {first second : List Action} (meets : Meets step condition state first)
    (ran : run step state first = some middle) (later : Meets step condition middle second) :
    Meets step condition state (first ++ second) := by
  induction first generalizing state with
  | nil =>
      simp only [run_nil, Option.some.injEq] at ran
      exact ran ▸ later
  | cons action rest ih =>
      obtain ⟨next, stepped, ran⟩ := run_cons_eq_some_iff.mp ran
      exact .cons meets.1 stepped (ih (meets.2 next stepped) ran)

/-- A condition on the steps of a run follows from another one where an invariant
holds that the latter keeps. -/
theorem Meets.imp_of_invariant {first second : State → Action → Prop}
    (invariant : State → Prop)
    (implies : ∀ state action, invariant state → first state action → second state action)
    (preserves : ∀ state action next, first state action → invariant state →
      step state action = some next → invariant next)
    {state : State} {actions : List Action} (holds : invariant state)
    (meets : Meets step first state actions) : Meets step second state actions := by
  induction actions generalizing state with
  | nil => trivial
  | cons action rest ih =>
      refine ⟨implies state action holds meets.1, fun next stepped => ?_⟩
      exact ih (preserves state action next meets.1 holds stepped) (meets.2 next stepped)

/-- Two conditions that agree wherever an invariant holds are met by the same
runs. -/
theorem meets_iff_of_invariant {first second : State → Action → Prop}
    (invariant : State → Prop) {state : State} {actions : List Action}
    (agree : ∀ state, ∀ action ∈ actions, invariant state →
      (first state action ↔ second state action))
    (preserves : ∀ state, ∀ action ∈ actions, ∀ next, invariant state →
      step state action = some next → invariant next)
    (holds : invariant state) :
    Meets step first state actions ↔ Meets step second state actions := by
  induction actions generalizing state with
  | nil => exact Iff.rfl
  | cons action rest ih =>
      have later : ∀ next, step state action = some next →
          (Meets step first next rest ↔ Meets step second next rest) := by
        intro next stepped
        apply ih
        · exact fun state action member => agree state action (List.mem_cons_of_mem _ member)
        · exact fun state action member =>
            preserves state action (List.mem_cons_of_mem _ member)
        · exact preserves state action List.mem_cons_self next holds stepped
      exact and_congr (agree state action List.mem_cons_self holds) (forall₂_congr later)

/-- The invariant rule for runs whose steps all meet a condition. -/
theorem run_preserves_of_meets {condition : State → Action → Prop}
    (invariant : State → Prop)
    (preserves : ∀ state action next, condition state action →
      invariant state → step state action = some next → invariant next)
    {state final : State} {actions : List Action}
    (meets : Meets step condition state actions) (holds : invariant state)
    (ran : run step state actions = some final) : invariant final := by
  induction actions generalizing state with
  | nil =>
      simp only [run_nil, Option.some.injEq] at ran
      exact ran ▸ holds
  | cons action rest ih =>
      obtain ⟨next, stepped, ran⟩ := run_cons_eq_some_iff.mp ran
      exact ih (meets.2 next stepped)
        (preserves state action next meets.1 holds stepped) ran

/-- Every state that the run passes through has the property, its first and
last states included. -/
def Throughout (step : State → Action → Option State) (property : State → Prop)
    (state : State) (actions : List Action) : Prop :=
  ∀ front back middle, actions = front ++ back →
    run step state front = some middle → property middle

theorem Throughout.rest {property : State → Prop} {state next : State}
    {action : Action} {rest : List Action}
    (throughout : Throughout step property state (action :: rest))
    (stepped : step state action = some next) :
    Throughout step property next rest := by
  intro front back middle split ran
  exact throughout (action :: front) back middle (by rw [split, List.cons_append])
    (run_cons_eq_some_iff.mpr ⟨next, stepped, ran⟩)

theorem Throughout.start {property : State → Prop} {state : State}
    {actions : List Action}
    (throughout : Throughout step property state actions) : property state :=
  throughout [] actions state rfl rfl

/-- The invariant rule for runs all of whose states have a property. -/
theorem run_preserves_of_throughout {property : State → Prop} (invariant : State → Prop)
    (preserves : ∀ state action next, invariant state → property next →
      step state action = some next → invariant next)
    {state final : State} {actions : List Action}
    (throughout : Throughout step property state actions)
    (holds : invariant state) (ran : run step state actions = some final) :
    invariant final := by
  induction actions generalizing state with
  | nil =>
      simp only [run_nil, Option.some.injEq] at ran
      exact ran ▸ holds
  | cons action rest ih =>
      obtain ⟨next, stepped, ran⟩ := run_cons_eq_some_iff.mp ran
      have later := throughout.rest stepped
      exact ih later (preserves state action next holds later.start stepped) ran

/-- When a property that an invariant gives can be kept by a step only under a
condition, and the condition keeps the invariant, then the property holds
throughout exactly the runs whose steps all meet the condition. -/
theorem throughout_iff_meets {property : State → Prop} {condition : State → Action → Prop}
    (invariant : State → Prop) (gives : ∀ state, invariant state → property state)
    (preserves : ∀ state action next, condition state action → invariant state →
      step state action = some next → invariant next)
    (needs : ∀ state action, invariant state →
      (∀ next, step state action = some next → property next) → condition state action)
    {state : State} {actions : List Action} (holds : invariant state) :
    Throughout step property state actions ↔ Meets step condition state actions := by
  constructor
  · intro throughout
    induction actions generalizing state with
    | nil => trivial
    | cons action rest ih =>
        have met : condition state action := by
          apply needs state action holds
          exact fun next stepped => (throughout.rest stepped).start
        refine ⟨met, fun next stepped => ?_⟩
        exact ih (preserves state action next met holds stepped) (throughout.rest stepped)
  · rintro meets front back middle rfl ran
    exact gives middle (run_preserves_of_meets invariant preserves meets.append_left holds ran)

/-- Some state that the run passes through has the property, its first and
last states included. -/
def Sometime (step : State → Action → Option State) (property : State → Prop)
    (state : State) (actions : List Action) : Prop :=
  ∃ front back middle, actions = front ++ back ∧
    run step state front = some middle ∧ property middle

theorem sometime_of_start {property : State → Prop} {state : State}
    (actions : List Action) (holds : property state) :
    Sometime step property state actions :=
  ⟨[], actions, state, rfl, rfl, holds⟩

theorem Sometime.cons {property : State → Prop} {state next : State}
    {action : Action} {rest : List Action}
    (stepped : step state action = some next)
    (sometime : Sometime step property next rest) :
    Sometime step property state (action :: rest) := by
  obtain ⟨front, back, middle, split, ran, holds⟩ := sometime
  refine ⟨action :: front, back, middle, by rw [split, List.cons_append], ?_, holds⟩
  exact run_cons_eq_some_iff.mpr ⟨next, stepped, ran⟩

/-- Along a run whose steps all meet a condition, either the awaited property
shows up or an invariant that only its arrival can break survives to the end. -/
theorem sometime_or_preserved {condition : State → Action → Prop}
    {awaited : State → Prop} (invariant : State → Prop)
    (preserves : ∀ state action next, condition state action → invariant state →
      step state action = some next → ¬ awaited next → invariant next)
    {state final : State} {actions : List Action}
    (meets : Meets step condition state actions) (holds : invariant state)
    (ran : run step state actions = some final) :
    Sometime step awaited state actions ∨ invariant final := by
  induction actions generalizing state with
  | nil =>
      simp only [run_nil, Option.some.injEq] at ran
      exact Or.inr (ran ▸ holds)
  | cons action rest ih =>
      obtain ⟨next, stepped, ran⟩ := run_cons_eq_some_iff.mp ran
      by_cases arrived : awaited next
      · exact Or.inl ((sometime_of_start rest arrived).cons stepped)
      · rcases ih (meets.2 next stepped)
          (preserves state action next meets.1 holds stepped arrived) ran with later | survived
        · exact Or.inl (later.cons stepped)
        · exact Or.inr survived

end LightRcu.Execution
