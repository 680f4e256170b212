import Mathlib.Data.Rat.Floor
import LearnCode.Library.CheckedLoop

/-!
# Operations of Swift that trap

A Swift `Int` has 64 bits, and its operators stop the program where the result does not fit. So do
a division by zero, a subscript outside an array and a range that ends before it begins. Such an
operation returns its value, or the trap that ends the program.

## Main definitions

* `Trap`: why the program ends;
* `SwiftInt.Fits`: an integer is a value of `Int`;
* `SwiftInt.add`, `SwiftInt.div`, `SwiftInt.rem`: `+`, `/` and `%` on `Int`;
* `SwiftInt.ofDouble`: `Int(_: Double)`, for the exact value of a double;
* `subscript` and `upTo`: `array[index]` and `0..<bound`.

## Main results

* `SwiftInt.foldlM_add`: a running sum traps exactly when its total does not fit;
* `SwiftInt.ofDouble_eq`: what is not negative and fits is rounded down.
-/

namespace LearnCode

open CheckedLoop

/-- Why a program ends before its time. -/
inductive Trap where
  /-- A result is not a value of `Int`. -/
  | overflow
  /-- A division or a remainder by zero. -/
  | divisionByZero
  /-- A subscript outside the array. -/
  | indexOutOfRange
  /-- A range whose upper bound is below its lower bound. -/
  | invalidRange
  deriving DecidableEq, Repr

namespace SwiftInt

/-- `Int.max`. -/
def intMax : ℤ := 2 ^ 63 - 1

/-- `Int.min`. -/
def intMin : ℤ := -2 ^ 63

/-- The integer is a value of `Int`. -/
def Fits (n : ℤ) : Prop := intMin ≤ n ∧ n ≤ intMax

instance : DecidablePred Fits := fun n => inferInstanceAs (Decidable (intMin ≤ n ∧ n ≤ intMax))

/-- The result of an operation, or the trap if it does not fit. -/
def checked (n : ℤ) : Except Trap ℤ := if Fits n then .ok n else .error .overflow

/-- `a + b`. -/
def add (a b : ℤ) : Except Trap ℤ := checked (a + b)

/-- `a / b`, rounded toward zero. -/
def div (a b : ℤ) : Except Trap ℤ :=
  if b = 0 then .error .divisionByZero else checked (a.tdiv b)

/-- `a % b`, with the sign of `a`. It traps with the quotient. -/
def rem (a b : ℤ) : Except Trap ℤ :=
  if b = 0 then .error .divisionByZero else do
    let _ ← checked (a.tdiv b)
    return a.tmod b

/-- `Int(x)`, rounded toward zero. -/
def ofDouble (x : ℚ) : Except Trap ℤ := checked (if 0 ≤ x then ⌊x⌋ else ⌈x⌉)

end SwiftInt

/-- `array[index]`. -/
def subscript {α : Type} (array : List α) (index : ℕ) : Except Trap α :=
  match array[index]? with
  | some element => .ok element
  | none => .error .indexOutOfRange

/-- `0..<bound`. -/
def upTo (bound : ℤ) : Except Trap (List ℕ) :=
  if 0 ≤ bound then .ok (List.range bound.toNat) else .error .invalidRange

/-! ## What the operations return on numbers that are not negative -/

namespace SwiftInt

/-- A natural number is checked against the upper bound alone. -/
theorem checked_natCast (n : ℕ) :
    checked n = if (n : ℤ) ≤ intMax then .ok (n : ℤ) else .error .overflow := by
  have hfits : Fits n ↔ (n : ℤ) ≤ intMax := by simp only [Fits, intMin]; omega
  simp only [checked, hfits]

theorem checked_of_le {n : ℕ} (h : (n : ℤ) ≤ intMax) : checked n = .ok (n : ℤ) := by
  rw [checked_natCast, if_pos h]

/-- A running sum traps exactly when its total does not fit. -/
theorem foldlM_add (values : List ℕ) (sum : ℕ) (h : (sum : ℤ) ≤ intMax) :
    (values.map Nat.cast).foldlM add (sum : ℤ) = checked ((sum + values.sum : ℕ) : ℤ) := by
  induction values generalizing sum with
  | nil => exact (checked_of_le h).symm
  | cons v values ih =>
    rw [List.map_cons, List.foldlM_cons, add, ← Nat.cast_add, checked_natCast, List.sum_cons,
      ← Nat.add_assoc]
    by_cases hv : ((sum + v : ℕ) : ℤ) ≤ intMax
    · rw [if_pos hv, ok_bind, ih _ hv]
    -- the total is at least the partial sum
    · rw [if_neg hv, error_bind, checked_natCast, if_neg (by omega)]

/-- A result that is checked is a value of `Int`. -/
theorem fits_of_checked {n m : ℤ} (h : checked n = .ok m) : Fits m := by
  unfold checked at h
  split_ifs at h with hfits
  cases h
  exact hfits

/-- What is not negative and fits is rounded down. -/
theorem ofDouble_eq {x : ℚ} (h : 0 ≤ x) (hfits : x < 2 ^ 63) : ofDouble x = .ok (⌊x⌋₊ : ℤ) := by
  have hlt : ⌊x⌋₊ < 2 ^ 63 := (Nat.floor_lt h).mpr (by exact_mod_cast hfits)
  rw [ofDouble, if_pos h, ← Int.natCast_floor_eq_floor h, checked_of_le (by simp only [intMax]; omega)]

/-- The quotient fits when the dividend does. -/
theorem div_natCast {a b : ℕ} (ha : (a : ℤ) ≤ intMax) (hb : 0 < b) :
    div a b = .ok ((a / b : ℕ) : ℤ) := by
  have hle : a / b ≤ a := Nat.div_le_self a b
  rw [div, if_neg (by omega), ← Int.ofNat_tdiv, checked_of_le (by omega)]

/-- A remainder by zero traps. -/
@[simp] theorem rem_zero (a : ℤ) : rem a 0 = .error .divisionByZero := rfl

/-- The remainder by another number does not trap. -/
theorem rem_natCast {a b : ℕ} (ha : (a : ℤ) ≤ intMax) (hb : 0 < b) :
    rem a b = .ok ((a % b : ℕ) : ℤ) := by
  have hle : a / b ≤ a := Nat.div_le_self a b
  rw [rem, if_neg (by omega), ← Int.ofNat_tdiv, checked_of_le (by omega), ok_bind,
    ← Int.ofNat_tmod]
  rfl

/-- A remainder is smaller than the divisor. -/
theorem natAbs_lt_of_rem {a b rest : ℤ} (h : rem a b = .ok rest) : rest.natAbs < b.natAbs := by
  by_cases hb : b = 0
  · simp [hb] at h
  · rw [rem, if_neg hb] at h
    cases hquot : checked (a.tdiv b) with
    | error trap => rw [hquot] at h; cases h
    | ok quot =>
      rw [hquot] at h
      cases h
      rw [Int.natAbs_tmod]
      exact Nat.mod_lt _ (Int.natAbs_pos.mpr hb)

end SwiftInt

/-- A subscript inside the array. -/
theorem subscript_of_getElem? {α : Type} {array : List α} {index : ℕ} {element : α}
    (h : array[index]? = some element) : subscript array index = .ok element := by
  rw [subscript, h]

/-- A subscript outside the array. -/
theorem subscript_of_length_le {α : Type} {array : List α} {index : ℕ}
    (h : array.length ≤ index) : subscript array index = .error .indexOutOfRange := by
  rw [subscript, List.getElem?_eq_none h]

@[simp] theorem upTo_natCast (bound : ℕ) : upTo bound = .ok (List.range bound) := by
  rw [upTo, if_pos (by omega), Int.toNat_natCast]

end LearnCode
