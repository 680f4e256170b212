import Mathlib.Data.List.Basic
import Mathlib.Logic.Function.Basic

/-!
# Callback programs

A function that takes a completion handler and works through asynchronous requests is a
tree: its body runs to the end at once, may call the handler on the way, and registers one
closure for each request it issues. A reply to a pending request runs that closure, whose
body is again such a tree.

## Main definitions

* `Prog Reply ρ`: a body that reports values of type `ρ` to its completion handler and
  issues requests `q`, each answered by a value of type `Reply q`;
* `Prog.completed` and `Prog.issued`: what a body reports, and what it leaves pending, when
  it has run to its end;
* `Settles pending trace results`: replies in the order of `trace` answer every pending
  request and every request issued on the way, and `results` is reported meanwhile;
* `Interleaves calls trace results`: the same for a family of calls whose replies arrive
  interleaved.

## Main results

* `settles_singleton_iff`: a call with one pending request settles by one reply to it, and
  then as the closure of that request does;
* `settles_reply_iff`: a call with one pending request whose closure issues nothing;
* `Settles.requests_perm`: a call whose closures issue nothing settles by replies to what is
  pending, in any order;
* `Interleaves.settles`: each call of an interleaved run settles by its own replies.
-/

namespace Callback

variable {Req : Type} {Reply : Req → Type} {ρ : Type}

/-- The body of a function, or of a closure, in callback style. -/
inductive Prog (Reply : Req → Type) (ρ : Type) : Type where
  /-- The body ends. -/
  | done : Prog Reply ρ
  /-- An exception is raised: nothing after it runs. -/
  | trap : Prog Reply ρ
  /-- The completion handler is called, and the body goes on. -/
  | complete (result : ρ) (next : Prog Reply ρ) : Prog Reply ρ
  /-- A request is issued with the closure that takes its reply, and the body goes on. -/
  | issue (request : Req) (callback : Reply request → Prog Reply ρ) (next : Prog Reply ρ) :
      Prog Reply ρ

/-- A request that is waiting for its reply, with the closure to run on it. -/
abbrev Pending (Reply : Req → Type) (ρ : Type) : Type :=
  (request : Req) × (Reply request → Prog Reply ρ)

/-- A request that has been answered, with its reply. -/
abbrev Event (Reply : Req → Type) : Type := (request : Req) × Reply request

namespace Prog

/-- The values a body reports while it runs to its end. -/
def completed : Prog Reply ρ → List ρ
  | done => []
  | trap => []
  | complete result next => result :: next.completed
  | issue _ _ next => next.completed

/-- The requests a body leaves pending when it has run to its end. -/
def issued : Prog Reply ρ → List (Pending Reply ρ)
  | done => []
  | trap => []
  | complete _ next => next.issued
  | issue request callback next => ⟨request, callback⟩ :: next.issued

@[simp] theorem completed_done : (done : Prog Reply ρ).completed = [] := rfl

@[simp] theorem completed_complete (result : ρ) (next : Prog Reply ρ) :
    (complete result next).completed = result :: next.completed := rfl

@[simp] theorem issued_done : (done : Prog Reply ρ).issued = [] := rfl

@[simp] theorem issued_trap : (trap : Prog Reply ρ).issued = [] := rfl

@[simp] theorem issued_complete (result : ρ) (next : Prog Reply ρ) :
    (complete result next).issued = next.issued := rfl

@[simp] theorem issued_issue (q : Req) (callback : Reply q → Prog Reply ρ)
    (next : Prog Reply ρ) :
    (issue q callback next).issued = ⟨q, callback⟩ :: next.issued := rfl

end Prog

/-- `Settles pending trace results`: answering the requests of `pending`, and those their
closures issue, in the order of `trace` leaves nothing pending, and the closures report
`results`. The pending request that is answered next is arbitrary. -/
inductive Settles : List (Pending Reply ρ) → List (Event Reply) → List ρ → Prop
  | nil : Settles [] [] []
  | reply {before after : List (Pending Reply ρ)} {q : Req}
      {callback : Reply q → Prog Reply ρ} (r : Reply q) {trace : List (Event Reply)}
      {results : List ρ} :
      Settles (before ++ after ++ (callback r).issued) trace results →
      Settles (before ++ ⟨q, callback⟩ :: after) (⟨q, r⟩ :: trace)
        ((callback r).completed ++ results)

/-- With nothing pending there is nothing to answer and nothing to report. -/
@[simp]
theorem settles_nil_iff {trace : List (Event Reply)} {results : List ρ} :
    Settles [] trace results ↔ trace = [] ∧ results = [] := by
  constructor
  · intro h
    generalize hp : ([] : List (Pending Reply ρ)) = pending at h
    cases h with
    | nil => exact ⟨rfl, rfl⟩
    -- a reply takes a pending request
    | reply r h => simp at hp
  · rintro ⟨rfl, rfl⟩
    exact Settles.nil

/-- A call with one pending request settles by one reply to it, and then as the closure of
that request does. -/
theorem settles_singleton_iff {q : Req} {callback : Reply q → Prog Reply ρ}
    {trace : List (Event Reply)} {results : List ρ} :
    Settles [⟨q, callback⟩] trace results ↔
      ∃ r trace' results', Settles (callback r).issued trace' results' ∧
        trace = ⟨q, r⟩ :: trace' ∧ results = (callback r).completed ++ results' := by
  constructor
  · intro h
    generalize hp : [(⟨q, callback⟩ : Pending Reply ρ)] = pending at h
    cases h with
    | nil => simp at hp
    | @reply before after q' callback' r trace' results' h =>
      -- the only pending request is the one that is answered
      obtain ⟨rfl, hcons⟩ : before = [] ∧ [(⟨q, callback⟩ : Pending Reply ρ)] =
          ⟨q', callback'⟩ :: after := by
        cases before with
        | nil => exact ⟨rfl, hp⟩
        | cons b before => simp at hp
      obtain ⟨hhead, rfl⟩ := List.cons.inj hcons
      cases hhead
      exact ⟨r, trace', results', by simpa using h, rfl, rfl⟩
  · rintro ⟨r, trace', results', h, rfl, rfl⟩
    have h' : Settles ([] ++ [] ++ (callback r).issued) trace' results' := by simpa using h
    exact Settles.reply r h'

/-- A request whose closure issues nothing on a reply settles by it, and the closure reports what
is reported. -/
theorem settles_reply_iff {q : Req} {callback : Reply q → Prog Reply ρ} {r : Reply q}
    (hleaf : (callback r).issued = []) {results : List ρ} :
    Settles [⟨q, callback⟩] [⟨q, r⟩] results ↔ results = (callback r).completed := by
  rw [settles_singleton_iff]
  constructor
  · rintro ⟨r', trace, results', h, htrace, rfl⟩
    obtain ⟨hr, rfl⟩ := List.cons.inj htrace
    obtain rfl : r = r' := by simpa using hr
    rw [hleaf, settles_nil_iff] at h
    -- the closure leaves nothing to answer, so nothing more is reported
    rw [h.2, List.append_nil]
  · rintro rfl
    exact ⟨r, [], [], by simp [hleaf], rfl, by simp⟩

/-- Where the closures issue nothing, the answered requests are the pending ones. -/
theorem Settles.requests_perm {pending : List (Pending Reply ρ)} {trace : List (Event Reply)}
    {results : List ρ} (h : Settles pending trace results)
    (hleaf : ∀ p ∈ pending, ∀ r, (p.2 r).issued = []) :
    (trace.map Sigma.fst).Perm (pending.map Sigma.fst) := by
  induction h with
  | nil => rfl
  | @reply before after q callback r trace results _ ih =>
    -- the answered request leaves the pending ones, and adds none
    have hnone : (callback r).issued = [] := hleaf ⟨q, callback⟩ (by simp) r
    rw [hnone, List.append_nil] at ih
    have hrest := ih fun p hp => hleaf p (by
      rcases List.mem_append.mp hp with hp | hp <;> simp [hp])
    rw [List.map_cons]
    refine (hrest.cons q).trans ?_
    rw [List.map_append, List.map_append, List.map_cons]
    exact List.perm_middle.symm

/-- Where the closures issue nothing and report nothing, nothing is reported. -/
theorem Settles.results_eq_nil {pending : List (Pending Reply ρ)} {trace : List (Event Reply)}
    {results : List ρ} (h : Settles pending trace results)
    (hsilent : ∀ p ∈ pending, ∀ r, (p.2 r).issued = [] ∧ (p.2 r).completed = []) :
    results = [] := by
  induction h with
  | nil => rfl
  | @reply before after q callback r trace results _ ih =>
    -- the others stay silent, as their closures are the same
    obtain ⟨hissued, hcompleted⟩ := hsilent ⟨q, callback⟩ (by simp) r
    rw [hissued, List.append_nil] at ih
    rw [hcompleted, List.nil_append]
    exact ih fun p hp => hsilent p (by
      rcases List.mem_append.mp hp with hp | hp <;> simp [hp])

section Interleaving

variable {ι : Type} [DecidableEq ι]

/-- The events of call `i` in a trace of several calls. -/
def project (i : ι) (trace : List (ι × Event Reply)) : List (Event Reply) :=
  (trace.filter (fun e => e.1 = i)).map Prod.snd

@[simp] theorem project_nil (i : ι) : project i ([] : List (ι × Event Reply)) = [] := rfl

@[simp] theorem project_cons_self (i : ι) (e : Event Reply) (trace : List (ι × Event Reply)) :
    project i ((i, e) :: trace) = e :: project i trace := by
  simp [project]

theorem project_cons_of_ne {i j : ι} (h : j ≠ i) (e : Event Reply)
    (trace : List (ι × Event Reply)) : project i ((j, e) :: trace) = project i trace := by
  simp [project, h]

/-- An event belongs to a trace under the tag `i` exactly when it is an event of call `i`. -/
theorem mem_project {i : ι} {e : Event Reply} {trace : List (ι × Event Reply)} :
    e ∈ project i trace ↔ (i, e) ∈ trace := by
  simp [project]

/-- An event of the trace is an event of some call. -/
theorem mem_map_snd_iff {e : Event Reply} {trace : List (ι × Event Reply)} :
    e ∈ trace.map Prod.snd ↔ ∃ i, e ∈ project i trace := by
  simp [mem_project]

/-- `Interleaves calls trace results`: the calls have the given pending requests, the
replies of `trace`, each tagged with its call, answer them and all that their closures
issue, and call `i` reports `results i`. -/
inductive Interleaves :
    (ι → List (Pending Reply ρ)) → List (ι × Event Reply) → (ι → List ρ) → Prop
  | nil {calls : ι → List (Pending Reply ρ)} :
      (∀ i, calls i = []) → Interleaves calls [] (fun _ => [])
  | reply {calls : ι → List (Pending Reply ρ)} {i : ι} {before after : List (Pending Reply ρ)}
      {q : Req} {callback : Reply q → Prog Reply ρ} (r : Reply q)
      {trace : List (ι × Event Reply)} {results : ι → List ρ} :
      calls i = before ++ ⟨q, callback⟩ :: after →
      Interleaves (Function.update calls i (before ++ after ++ (callback r).issued))
        trace results →
      Interleaves calls ((i, ⟨q, r⟩) :: trace)
        (Function.update results i ((callback r).completed ++ results i))

/-- The first pending request of a call is answered. -/
theorem Interleaves.reply_first {calls : ι → List (Pending Reply ρ)} {i : ι}
    {after : List (Pending Reply ρ)} {q : Req} {callback : Reply q → Prog Reply ρ} (r : Reply q)
    {trace : List (ι × Event Reply)} {results : ι → List ρ}
    (hcalls : calls i = ⟨q, callback⟩ :: after)
    (h : Interleaves (Function.update calls i (after ++ (callback r).issued)) trace results) :
    Interleaves calls ((i, ⟨q, r⟩) :: trace)
      (Function.update results i ((callback r).completed ++ results i)) :=
  Interleaves.reply r (hcalls.trans (List.nil_append _).symm) h

/-- Each call of an interleaved run settles by its own replies, in their order. -/
theorem Interleaves.settles {calls : ι → List (Pending Reply ρ)}
    {trace : List (ι × Event Reply)} {results : ι → List ρ}
    (h : Interleaves calls trace results) (j : ι) :
    Settles (calls j) (project j trace) (results j) := by
  induction h with
  | nil hcalls => simp [hcalls j]
  | @reply calls i before after q callback r trace results hi _ ih =>
    by_cases hij : i = j
    · -- the reply is to this call, which goes on with its closure
      subst hij
      rw [hi, project_cons_self, Function.update_self]
      rw [Function.update_self] at ih
      exact Settles.reply r ih
    · -- the reply is to another call
      rw [project_cons_of_ne hij, Function.update_of_ne (Ne.symm hij)]
      rwa [Function.update_of_ne (Ne.symm hij)] at ih

end Interleaving

end Callback
