import Mathlib.Algebra.Group.Int.Defs
import Mathlib.Algebra.Group.Nat.Defs
import Mathlib.Data.Int.Init
import Mathlib.Logic.Function.Iterate

/-!
# Machine integers

Values of type `u64` are kept as naturals and values of type `i32` as integers.
An increment at the end of the range goes round to the other end.
-/

namespace LightRcu

/-- `value + 1` for a `u64`. -/
def u64Succ (value : Nat) : Nat :=
  (value + 1) % 2 ^ 64

theorem u64Succ_of_lt {value : Nat} (room : value < 2 ^ 64 - 1) : u64Succ value = value + 1 :=
  Nat.mod_eq_of_lt (by omega)

theorem u64Succ_le (value : Nat) : u64Succ value ≤ value + 1 :=
  Nat.mod_le _ _

theorem iterate_u64Succ {value count : Nat} (room : value + count < 2 ^ 64) :
    u64Succ^[count] value = value + count := by
  induction count with
  | zero => rfl
  | succ count ih =>
      rw [Function.iterate_succ_apply', ih (by omega), u64Succ_of_lt (by omega)]
      rfl

/-- `value + 1` for an `i32`, in two's complement. -/
def i32Succ (value : Int) : Int :=
  Int.bmod (value + 1) (2 ^ 32)

/-- `value - 1` for an `i32`, in two's complement. -/
def i32Pred (value : Int) : Int :=
  Int.bmod (value - 1) (2 ^ 32)

/-- The values of an `i32`. -/
def IsI32 (value : Int) : Prop :=
  -2 ^ 31 ≤ value ∧ value < 2 ^ 31

private theorem isI32_bmod (value : Int) : IsI32 (Int.bmod value (2 ^ 32)) := by
  have low := Int.le_bmod (x := value) (m := 2 ^ 32) (by decide)
  have high := Int.bmod_lt (x := value) (m := 2 ^ 32) (by decide)
  exact ⟨by omega, by omega⟩

theorem isI32_succ (value : Int) : IsI32 (i32Succ value) :=
  isI32_bmod _

theorem isI32_pred (value : Int) : IsI32 (i32Pred value) :=
  isI32_bmod _

private theorem IsI32.bmod_eq {value : Int} (fits : IsI32 value) :
    Int.bmod value (2 ^ 32) = value := by
  apply Int.bmod_eq_of_le
  · exact fits.1
  · exact fits.2

theorem i32Succ_of_lt {value : Int} (fits : IsI32 value) (room : value < 2 ^ 31 - 1) :
    i32Succ value = value + 1 :=
  IsI32.bmod_eq ⟨by have := fits.1; omega, by omega⟩

theorem eq_zero_of_i32Succ {value : Int} (fits : IsI32 value) (one : i32Succ value = 1) :
    value = 0 := by
  by_cases highest : value = 2 ^ 31 - 1
  · subst highest
    exact absurd one (by decide)
  · have room : value < 2 ^ 31 - 1 := by
      have := fits.2
      omega
    rw [i32Succ_of_lt fits room] at one
    omega

/-- A decrement that ends at `0` or above began above `0`, or at the lowest value. -/
theorem i32Pred_cases {value : Int} (fits : IsI32 value) (counted : 0 ≤ i32Pred value) :
    0 < value ∧ i32Pred value = value - 1 ∨
      value = -2 ^ 31 ∧ i32Pred value = 2 ^ 31 - 1 := by
  obtain ⟨low, high⟩ := fits
  by_cases lowest : value = -2 ^ 31
  · subst lowest
    exact Or.inr ⟨rfl, rfl⟩
  · have within : IsI32 (value - 1) := ⟨by omega, by omega⟩
    have same : i32Pred value = value - 1 := within.bmod_eq
    rw [same] at counted
    exact Or.inl ⟨by omega, same⟩

end LightRcu
