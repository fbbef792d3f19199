import LightRcu.Execution

/-!
# Forward simulations

A system with small steps refines one with large steps when a relation between
their states is kept by every small step, either by itself or together with one
large step.  The small steps may rely on a property of all states of their run.
-/

namespace LightRcu.Execution

variable {State Action Abstract Label : Type*} {step : State → Action → Option State}
  {abstractStep : Abstract → Label → Option Abstract}

/-- The step is matched by a step of the abstract system, or by none. -/
def Matched (abstractStep : Abstract → Label → Option Abstract)
    (related : State → Abstract → Prop) (next : State) (abstract : Abstract) : Prop :=
  related next abstract ∨
    ∃ label abstractNext, abstractStep abstract label = some abstractNext ∧
      related next abstractNext

/-- The simulation rule. -/
theorem run_simulates {property : State → Prop} (related : State → Abstract → Prop)
    (simulates : ∀ state action next abstract, related state abstract → property next →
      step state action = some next → Matched abstractStep related next abstract)
    {state final : State} {actions : List Action} {abstract : Abstract}
    (throughout : Throughout step property state actions) (begins : related state abstract)
    (ran : run step state actions = some final) :
    ∃ labels abstractFinal, run abstractStep abstract labels = some abstractFinal ∧
      related final abstractFinal := by
  induction actions generalizing state abstract with
  | nil =>
      rw [run_nil, Option.some.injEq] at ran
      exact ⟨[], abstract, rfl, ran ▸ begins⟩
  | cons action rest ih =>
      obtain ⟨next, stepped, ran⟩ := run_cons_eq_some_iff.mp ran
      have later := throughout.rest stepped
      rcases simulates state action next abstract begins later.start stepped with
        stays | ⟨label, abstractNext, abstractStepped, follows⟩
      · exact ih later stays ran
      · obtain ⟨labels, abstractFinal, abstractRan, ends⟩ := ih later follows ran
        exact ⟨label :: labels, abstractFinal,
          run_cons_eq_some_iff.mpr ⟨abstractNext, abstractStepped, abstractRan⟩, ends⟩

end LightRcu.Execution
