import Mathlib.Data.List.Infix
import Mathlib.Data.List.Sort
import Mathlib.Data.String.Basic
import Mathlib.Data.Int.Log
import Mathlib.Data.Rat.Floor

/-!
# The parts of the Swift library that the app uses

Strings are sequences of Unicode scalars, compared scalar by scalar. A `TimeInterval` is the
rational that a finite double denotes; the database holds no other doubles.

## Main definitions

* `sorted` and `joined`: `[String].sorted()` and `[String].joined(separator:)`;
* `contains`: `String.contains(_:)` for a string;
* `exactlyDouble`: whether an integer is a value of `Double`;
* `toDouble`: the value of `Double` that is nearest to a number.
-/

namespace LearnCode

/-- Seconds, as the exact value of a finite double. -/
abbrev TimeInterval : Type := ℚ

/-- `[String].sorted()`. -/
def sorted (strings : List String) : List String := strings.insertionSort (· ≤ ·)

/-- `[String].joined(separator:)`. -/
def joined (separator : String) : List String → String
  | [] => ""
  | [s] => s
  | s :: t :: rest => s ++ separator ++ joined separator (t :: rest)

/-- `String.contains(_:)`: the other string occurs in this one. -/
def contains (s other : String) : Bool := decide (other.toList <:+: s.toList)

/-- Whether an integer is a value of `Double`: its odd part has at most 53 bits. -/
def exactlyDouble (n : ℤ) : Bool :=
  n.natAbs < 2 ^ 53 || n.natAbs % 2 ^ (n.natAbs.log2 - 52) = 0

/-- The nearest integer, and the even one of two. -/
def roundEven (x : ℚ) : ℤ :=
  if x - ⌊x⌋ < 1 / 2 ∨ x - ⌊x⌋ = 1 / 2 ∧ Even ⌊x⌋ then ⌊x⌋ else ⌊x⌋ + 1

/-- The exponent of the last of the 53 bits of a double of this magnitude. -/
def lastBit (x : ℚ) : ℤ := max (Int.log 2 |x| - 52) (-1074)

/-- The nearest value of `Double`, to which the result of each of its operations is rounded. Where
that is infinite, the result stays a number above the greatest double. -/
def toDouble (x : ℚ) : ℚ := roundEven (x / 2 ^ lastBit x) * 2 ^ lastBit x

/-- The decimals of different numbers are different. -/
theorem repr_injective : Function.Injective Nat.repr := by
  intro n m h
  have hdigits := congrArg (fun s => Nat.ofDigitChars 10 s.toList 0) h
  simpa only [Nat.toList_repr, Nat.ofDigitChars_ten_toDigits] using hdigits

/-- A decimal is made of digits. -/
theorem all_isDigit_toString (n : ℕ) : (toString n).toList.all Char.isDigit = true := by
  rw [List.all_eq_true, Nat.toString_eq_repr, Nat.toList_repr]
  exact fun c hc => Nat.isDigit_of_mem_toDigits (by decide) (by decide) hc

@[simp] theorem contains_self (s : String) : contains s s = true := by
  simp [contains]

/-- The empty string contains only itself. -/
theorem contains_empty {s : String} : contains "" s = true ↔ s = "" := by
  simp [contains]

/-- Sorting does not depend on the order in which two strings are listed. -/
theorem sorted_pair_comm (a b : String) : sorted [a, b] = sorted [b, a] := by
  have hperm : (sorted [a, b]).Perm (sorted [b, a]) :=
    (List.perm_insertionSort _ _).trans
      ((List.Perm.swap b a []).trans (List.perm_insertionSort _ _).symm)
  exact hperm.eq_of_pairwise (fun x y _ _ hxy hyx => le_antisymm hxy hyx)
    (List.pairwise_insertionSort _ _) (List.pairwise_insertionSort _ _)

/-- Two strings in order are their own sorted list. -/
theorem sorted_pair_of_le {a b : String} (h : a ≤ b) : sorted [a, b] = [a, b] := by
  simp [sorted, List.insertionSort, h]

/-- The two strings of a pair, smaller first. -/
theorem sorted_pair (a b : String) : sorted [a, b] = [min a b, max a b] := by
  rcases le_total a b with h | h
  · rw [sorted_pair_of_le h, min_eq_left h, max_eq_right h]
  · rw [sorted_pair_comm, sorted_pair_of_le h, min_eq_right h, max_eq_left h]

@[simp] theorem joined_pair (separator s t : String) :
    joined separator [s, t] = s ++ separator ++ t := rfl

end LearnCode
