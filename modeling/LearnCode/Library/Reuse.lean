import Mathlib.Data.List.Basic

/-!
# Reused objects

An object is reused: each update overwrites some of its parts and leaves the others as they were.
The last update forgets the history when the object looks the same after all histories that end
with it.

## Main definitions

* `reused update fresh history`: the object after the updates of a history;
* `Forgets update fresh e`: the object does not depend on what came before `e`.

## Main results

* `forgets_of_overwrites`: an update that gives the same from any object forgets the history;
* `Forgets.update_eq`: after an update that forgets, a new object and a used one are the same.
-/

namespace Reuse

variable {ε ν : Type} (update : ε → ν → ν) (fresh : ν)

/-- The object after the updates of a history, from a fresh one on. -/
def reused (history : List ε) : ν := history.foldl (fun v e => update e v) fresh

/-- The object is the same after all histories that end with `e`. -/
def Forgets (e : ε) : Prop :=
  ∀ history history', reused update fresh (history ++ [e]) = reused update fresh (history' ++ [e])

variable {update fresh}

/-- The last update is made to what the others have left. -/
theorem reused_append_singleton (history : List ε) (e : ε) :
    reused update fresh (history ++ [e]) = update e (reused update fresh history) := by
  simp [reused]

/-- An update that gives the same from any object forgets the history. -/
theorem forgets_of_overwrites {e : ε} (h : ∀ v v', update e v = update e v') :
    Forgets update fresh e := by
  intro history history'
  rw [reused_append_singleton, reused_append_singleton]
  exact h _ _

/-- After an update that forgets, a fresh object and one with a history are the same. -/
theorem Forgets.update_eq {e : ε} (h : Forgets update fresh e) (history : List ε) :
    update e (reused update fresh history) = update e fresh := by
  have := h history []
  rwa [reused_append_singleton, reused_append_singleton] at this

end Reuse
