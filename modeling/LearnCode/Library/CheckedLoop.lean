import Mathlib.Data.List.Range

/-!
# Loops whose body may fail

A loop over a range of indices runs its body until the first failure. Where the state before each
index is known, so is what the loop returns.

## Main results

* `foldlM_range_ok`: a body that never fails leads to the state after the last index;
* `foldlM_range_error`: the first failure of the body is the failure of the loop.
-/

namespace CheckedLoop

variable {ε σ α : Type} {body : σ → ℕ → Except ε σ} (state : ℕ → σ)

@[simp] theorem ok_bind {β : Type} (a : α) (f : α → Except ε β) :
    ((Except.ok a : Except ε α) >>= f) = f a := rfl

@[simp] theorem error_bind {β : Type} (e : ε) (f : α → Except ε β) :
    ((Except.error e : Except ε α) >>= f) = .error e := rfl

/-- A body that leads from the state before each index to the state after it leads to the last. -/
theorem foldlM_range_ok {n : ℕ} (h : ∀ k < n, body (state k) k = .ok (state (k + 1))) :
    (List.range n).foldlM body (state 0) = .ok (state n) := by
  induction n with
  | zero => rfl
  | succ n ih =>
    rw [List.range_succ, List.foldlM_append, ih fun k hk => h k (Nat.lt_succ_of_lt hk), ok_bind,
      List.foldlM_cons, h n (Nat.lt_succ_self n)]
    rfl

/-- A loop fails as its body does at the first index where it fails. -/
theorem foldlM_range_error {m n : ℕ} {e : ε} (hm : m < n)
    (h : ∀ k < m, body (state k) k = .ok (state (k + 1))) (herror : body (state m) m = .error e) :
    (List.range n).foldlM body (state 0) = .error e := by
  obtain ⟨rest, rfl⟩ : ∃ rest, n = m + 1 + rest := ⟨n - (m + 1), by omega⟩
  -- the passes before the failure, the one that fails, and those that are not reached
  rw [List.range_add, List.foldlM_append, List.range_succ, List.foldlM_append,
    foldlM_range_ok state h, ok_bind, List.foldlM_cons, herror]
  rfl

end CheckedLoop
