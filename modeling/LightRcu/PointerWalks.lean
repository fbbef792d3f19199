import LightRcu.PointerChains
import Mathlib.Data.Fintype.Option
import Mathlib.Data.Fintype.Pigeonhole
import Mathlib.Logic.Function.Iterate

/-!
# Walks along pointers

Follow the `next` fields from a pointer, as long as it takes.  In a finite heap
the walk either ends, which is when the addresses that it visits form a chain,
or it meets some address again.
-/

namespace LightRcu

variable {Addr : Type*}

/-- The pointer that a walk has after the given number of steps. -/
def pointerWalk (next : Addr → Option Addr) (head : Option Addr) (steps : Nat) : Option Addr :=
  (fun pointer => pointer.bind next)^[steps] head

/-- The walk comes to its end. -/
def WalkEnds (next : Addr → Option Addr) (head : Option Addr) : Prop :=
  ∃ steps, pointerWalk next head steps = none

/-- The address is visited after the given number of steps, and again after
another round. -/
def CyclesAt (next : Addr → Option Addr) (head : Option Addr) (steps round : Nat) : Prop :=
  0 < round ∧ ∃ addr, pointerWalk next head steps = some addr ∧
    pointerWalk next head (steps + round) = some addr

/-- The walk runs into a cycle. -/
def WalkCycles (next : Addr → Option Addr) (head : Option Addr) : Prop :=
  ∃ steps round, CyclesAt next head steps round

variable {next : Addr → Option Addr} {head : Option Addr} {addrs : List Addr} {addr : Addr}
  {steps other : Nat}

@[simp]
theorem pointerWalk_zero (next : Addr → Option Addr) (head : Option Addr) :
    pointerWalk next head 0 = head :=
  rfl

theorem pointerWalk_succ (next : Addr → Option Addr) (head : Option Addr) (steps : Nat) :
    pointerWalk next head (steps + 1) = (pointerWalk next head steps).bind next :=
  Function.iterate_succ_apply' _ _ _

theorem pointerWalk_next (visits : pointerWalk next head steps = some addr) :
    pointerWalk next head (steps + 1) = next addr := by
  rw [pointerWalk_succ, visits, Option.bind_some]

theorem pointerWalk_congr (same : pointerWalk next head steps = pointerWalk next head other)
    (more : Nat) :
    pointerWalk next head (steps + more) = pointerWalk next head (other + more) := by
  induction more with
  | zero => exact same
  | succ more ih => rw [← Nat.add_assoc, ← Nat.add_assoc, pointerWalk_succ, pointerWalk_succ, ih]

theorem pointerWalk_none_of_le (ended : pointerWalk next head steps = none)
    (later : steps ≤ other) : pointerWalk next head other = none := by
  induction other, later using Nat.le_induction with
  | base => exact ended
  | succ other later ih => rw [pointerWalk_succ, ih, Option.bind_none]

/-- Before a visit the walk has not ended. -/
theorem pointerWalk_some_of_le (visits : pointerWalk next head other = some addr)
    (earlier : steps ≤ other) : ∃ addr, pointerWalk next head steps = some addr := by
  cases found : pointerWalk next head steps with
  | none => exact absurd ((pointerWalk_none_of_le found earlier).symm.trans visits) (by simp)
  | some addr => exact ⟨addr, rfl⟩

/-! ## Cycles -/

theorem CyclesAt.later {round : Nat} (cycles : CyclesAt next head steps round)
    (later : steps ≤ other) : CyclesAt next head other round := by
  obtain ⟨positive, addr, first, again⟩ := cycles
  obtain ⟨more, rfl⟩ := Nat.exists_eq_add_of_le later
  have same := pointerWalk_congr (first.trans again.symm) more
  cases found : pointerWalk next head (steps + more) with
  | some addr =>
      refine ⟨positive, addr, found, ?_⟩
      rw [Nat.add_right_comm, ← same, found]
  | none =>
      -- a walk that ends cannot come back, however many rounds it has made
      exfalso
      have goesOn : ∀ rounds, pointerWalk next head (steps + rounds * round) = some addr := by
        intro rounds
        induction rounds with
        | zero => simpa using first
        | succ rounds ih =>
            have moved := pointerWalk_congr (ih.trans first.symm) round
            rw [Nat.succ_mul, ← Nat.add_assoc, moved, again]
      have reached : steps + more ≤ steps + more * round :=
        Nat.add_le_add_left (Nat.le_mul_of_pos_right more positive) steps
      exact absurd ((goesOn more).symm.trans (pointerWalk_none_of_le found reached)) (by simp)

theorem not_walkEnds_of_walkCycles (cycles : WalkCycles next head) : ¬ WalkEnds next head := by
  rintro ⟨other, ended⟩
  obtain ⟨steps, round, at_⟩ := cycles
  obtain ⟨_, addr, visits, _⟩ := at_.later (Nat.le_max_left steps other)
  have ended' := pointerWalk_none_of_le ended (Nat.le_max_right steps other)
  exact absurd (visits.symm.trans ended') (by simp)

/-- In a finite heap a walk ends or runs into a cycle. -/
theorem walkEnds_or_walkCycles [Finite Addr] (next : Addr → Option Addr) (head : Option Addr) :
    WalkEnds next head ∨ WalkCycles next head := by
  obtain ⟨first, second, apart, same⟩ :=
    Finite.exists_ne_map_eq_of_infinite (pointerWalk next head)
  wlog ordered : first < second generalizing first second
  · exact this second first apart.symm same.symm (by omega)
  cases found : pointerWalk next head first with
  | none => exact Or.inl ⟨first, found⟩
  | some addr =>
      obtain ⟨round, rfl⟩ := Nat.exists_eq_add_of_le ordered.le
      exact Or.inr ⟨first, round, by omega, addr, found, same ▸ found⟩

/-! ## Chains -/

theorem Chain.pointerWalk_eq (chain : Chain next head addrs) (steps : Nat) :
    pointerWalk next head steps = addrs[steps]? := by
  induction steps with
  | zero => exact chain.head_eq
  | succ steps ih =>
      rw [pointerWalk_succ, ih]
      cases found : addrs[steps]? with
      | none =>
          rw [Option.bind_none, List.getElem?_eq_none]
          exact (List.getElem?_eq_none_iff.mp found).trans (Nat.le_succ steps)
      | some addr => exact chain.next_eq found

/-- The walk ends exactly when the addresses that it visits form a chain. -/
theorem walkEnds_iff_chain : WalkEnds next head ↔ ∃ addrs, Chain next head addrs := by
  constructor
  · rintro ⟨steps, ended⟩
    induction steps generalizing head with
    | zero => exact ⟨[], ended⟩
    | succ steps ih =>
        cases head with
        | none => exact ⟨[], rfl⟩
        | some addr =>
            have behind : pointerWalk next (next addr) steps = none := ended
            obtain ⟨rest, chain⟩ := ih behind
            exact ⟨addr :: rest, rfl, chain⟩
  · rintro ⟨addrs, chain⟩
    exact ⟨addrs.length, by rw [chain.pointerWalk_eq, List.getElem?_eq_none (Nat.le_refl _)]⟩

end LightRcu
