import Mathlib.Data.List.Basic

/-!
# Runs of a state machine

A machine moves from a state by an action, when the action is enabled there; whatever is
not determined by the state is part of the action. A run is the list of its steps. Facts
about all runs come from facts about one step by the rules below, in which `G` is a
condition on the state before a step and on its action.

## Main definitions

* `Machine σ α`: the initial states and the partial step function;
* `Run M s steps s'`: the steps lead from `s` to `s'`;
* `Machine.execute`: the run by given actions.

## Main results

* `Run.invariant`: what holds at the start and is kept by every step that meets `G` holds
  throughout a run whose steps meet `G`;
* `Run.forall_iff`: if a step from a state of the invariant is good exactly when it meets
  `G`, then all steps of a run are good exactly when all of them meet `G`.
-/

namespace Transition

variable {σ α : Type}

/-- A state machine with states in `σ` and actions in `α`. -/
structure Machine (σ α : Type) where
  /-- The states in which a run may start. -/
  init : σ → Prop
  /-- The state after an action, if the action is enabled. -/
  next : σ → α → Option σ

/-- One step of a run. -/
structure Step (σ α : Type) where
  /-- The state before the step. -/
  pre : σ
  /-- The action taken. -/
  action : α
  /-- The state after the step. -/
  post : σ

/-- `Run M s steps s'`: the steps are taken one after the other and lead from `s` to `s'`. -/
inductive Run (M : Machine σ α) : σ → List (Step σ α) → σ → Prop
  | nil (s : σ) : Run M s [] s
  | cons {s s' s'' : σ} {a : α} {steps : List (Step σ α)} :
      M.next s a = some s' → Run M s' steps s'' → Run M s (⟨s, a, s'⟩ :: steps) s''

/-- The steps and the last state of the run by the given actions, if each is enabled. -/
def Machine.execute (M : Machine σ α) : σ → List α → Option (List (Step σ α) × σ)
  | s, [] => some ([], s)
  | s, a :: actions => do
    let t ← M.next s a
    let (steps, s') ← M.execute t actions
    return (⟨s, a, t⟩ :: steps, s')

variable {M : Machine σ α} {s s' : σ} {steps : List (Step σ α)}

/-- Executing actions makes a run. -/
theorem Run.of_execute {actions : List α} (h : M.execute s actions = some (steps, s')) :
    Run M s steps s' := by
  induction actions generalizing s steps with
  | nil =>
    obtain ⟨rfl, rfl⟩ := Prod.mk.inj (Option.some.inj h)
    exact Run.nil s
  | cons a actions ih =>
    simp only [Machine.execute, Option.bind_eq_bind, Option.bind_eq_some_iff] at h
    obtain ⟨t, hnext, ⟨steps', s''⟩, hrest, heq⟩ := h
    obtain ⟨rfl, rfl⟩ := Prod.mk.inj (Option.some.inj heq)
    exact Run.cons hnext (ih hrest)

/-- Each step of a run is a step of its machine. -/
theorem Run.next_of_mem (h : Run M s steps s') {st : Step σ α} (hst : st ∈ steps) :
    M.next st.pre st.action = some st.post := by
  induction h with
  | nil => cases hst
  | cons hnext _ ih =>
    rcases List.mem_cons.mp hst with rfl | hst
    · exact hnext
    · exact ih hst

/-- A property of states that holds at the start, and is kept by each step that meets `G`,
holds before and after every step, and at the end, of a run whose steps meet `G`. -/
theorem Run.invariant {I : σ → Prop} {G : σ → α → Prop} (h : Run M s steps s') (h₀ : I s)
    (hstep : ∀ s a s', I s → G s a → M.next s a = some s' → I s')
    (hG : ∀ st ∈ steps, G st.pre st.action) :
    I s' ∧ ∀ st ∈ steps, I st.pre ∧ I st.post := by
  induction h with
  | nil => exact ⟨h₀, by simp⟩
  | @cons s t s'' a steps hnext _ ih =>
    have hG₀ : G s a := hG ⟨s, a, t⟩ List.mem_cons_self
    have ht : I t := hstep s a t h₀ hG₀ hnext
    obtain ⟨hend, hsteps⟩ := ih ht (fun st hst => hG st (List.mem_cons_of_mem _ hst))
    refine ⟨hend, fun st hst => ?_⟩
    rcases List.mem_cons.mp hst with rfl | hst
    · exact ⟨h₀, ht⟩
    · exact hsteps st hst

/-- Suppose a step from a state of the invariant `I` is good exactly when it meets `G`, and
then leads to a state of `I` again. All steps of a run are good exactly when all of them
meet `G`. -/
theorem Run.forall_iff {I : σ → Prop} {G : σ → α → Prop} {Good : Step σ α → Prop}
    (h : Run M s steps s') (h₀ : I s)
    (hstep : ∀ s a s', I s → G s a → M.next s a = some s' → I s')
    (hgood : ∀ s a s', I s → M.next s a = some s' → (Good ⟨s, a, s'⟩ ↔ G s a)) :
    (∀ st ∈ steps, Good st) ↔ ∀ st ∈ steps, G st.pre st.action := by
  induction h with
  | nil => simp
  | @cons s t s'' a steps hnext _ ih =>
    rw [List.forall_mem_cons, List.forall_mem_cons, hgood s a t h₀ hnext]
    -- the invariant carries over to the rest of the run only by a good first step
    refine and_congr_right fun hG => ?_
    exact ih (hstep s a t h₀ hG hnext)

end Transition
