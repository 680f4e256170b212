import Mathlib.Data.List.Basic

/-!
# Iterators

An iterator gives one element at each call and changes its state. When the elements that are
still to come can be read off every valid state, and each call gives the first of them and leaves
the rest in a valid state, the calls give these elements in their order, and nothing after the
last.

A block that is called with the elements of a list can change a state and can stop the calls.

## Main definitions

* `call next i s`: what the call after `i` others gives;
* `visit block l s`: the calls of a block that can stop them.

## Main results

* `call_eq_getElem?`: the calls give the elements that are to come;
* `visit_append`: a list in two parts is visited part by part.
-/

namespace Iterator

variable {σ α : Type} (next : σ → Option α × σ)

/-- What the call after `i` others gives. -/
def call : (i : ℕ) → σ → Option α
  | 0, s => (next s).1
  | i + 1, s => call i (next s).2

variable {next}

/-- The calls give the elements that are to come, one after the other. -/
theorem call_eq_getElem? {pending : σ → List α} {Valid : σ → Prop}
    (hhead : ∀ s, Valid s → (next s).1 = (pending s).head?)
    (htail : ∀ s, Valid s → pending (next s).2 = (pending s).tail)
    (hvalid : ∀ s, Valid s → Valid (next s).2) (i : ℕ) {s : σ} (hs : Valid s) :
    call next i s = (pending s)[i]? := by
  induction i generalizing s with
  | zero => rw [call, hhead s hs, List.head?_eq_getElem?]
  | succ i ih => rw [call, ih (hvalid s hs), htail s hs, List.getElem?_tail]

section Visit

variable (block : α → σ → Bool × σ)

/-- Call a block with the elements of a list until it says to stop; the result says whether it
did. -/
def visit : List α → σ → Bool × σ
  | [], s => (false, s)
  | a :: l, s =>
    match block a s with
    | (true, s) => (true, s)
    | (false, s) => visit l s

@[simp] theorem visit_nil (s : σ) : visit block [] s = (false, s) := rfl

/-- The second part of a list is visited when the block did not stop in the first. -/
theorem visit_append (l l' : List α) (s : σ) :
    visit block (l ++ l') s =
      match visit block l s with
      | (true, s) => (true, s)
      | (false, s) => visit block l' s := by
  induction l generalizing s with
  | nil => rfl
  | cons a l ih =>
    simp only [List.cons_append, visit]
    split <;> simp_all

end Visit

end Iterator
