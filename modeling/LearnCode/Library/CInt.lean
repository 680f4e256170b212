import Mathlib.Algebra.Order.Ring.Int

/-!
# Integers of C

An `int` has 32 bits. An operation on it, or a conversion to it, whose result does not fit keeps the
last 32 bits of the result.

## Main definitions

* `wrap`: the `int` with the last bits of a number.

## Main results

* `wrap_natCast`: a size that fits is kept;
* `wrap_natCast_inj`: sizes of at most 32 bits with the same `int` are equal.
-/

namespace CInt

/-- The `int` with the last 32 bits of a number, of which the first is the sign. -/
def wrap (n : ℤ) : ℤ := (n + 2 ^ 31) % 2 ^ 32 - 2 ^ 31

/-- A size that fits is kept. -/
theorem wrap_natCast {n : ℕ} (h : n < 2 ^ 31) : wrap n = n := by
  unfold wrap
  omega

/-- An `int` has 31 bits beside its sign. -/
theorem wrap_lt (n : ℤ) : wrap n < 2 ^ 31 := by
  unfold wrap
  omega

/-- An operand of a sum may be wrapped before it is added. -/
theorem wrap_wrap_add (a b : ℤ) : wrap (wrap a + b) = wrap (a + b) := by
  unfold wrap
  omega

theorem wrap_add_wrap (a b : ℤ) : wrap (a + wrap b) = wrap (a + b) := by
  unfold wrap
  omega

/-- Sizes of at most 32 bits with the same `int` are equal. -/
theorem wrap_natCast_inj {m n : ℕ} (hm : m < 2 ^ 32) (hn : n < 2 ^ 32) :
    wrap m = wrap n ↔ m = n := by
  unfold wrap
  omega

end CInt
