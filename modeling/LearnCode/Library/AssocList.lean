import Mathlib.Data.List.Basic
import Mathlib.Data.List.Nodup

/-!
# Association lists with distinct keys

A dictionary that is enumerated in some order is an association list with distinct keys.
What a loop over its entries collects is, up to order, what it collects at one key and what
it collects at all others.

## Main results

* `lookup_eq_some_iff_mem`: with distinct keys, a value is found exactly at its key;
* `foldl_append_eq_flatMap`: a loop that appends is a `flatMap`;
* `flatMap_perm_lookup`: what a `flatMap` collects, split at one key;
* `flatMap_perm_of_lookup`: a `flatMap` over two enumerations of the same keys collects the
  same, up to order, when it does so at each key.
-/

namespace AssocList

variable {κ β γ : Type}

/-- A loop that appends to an accumulator what each element gives. -/
theorem foldl_append_eq_flatMap (f : β → List γ) (entries : List β) (acc : List γ) :
    entries.foldl (fun acc e => acc ++ f e) acc = acc ++ entries.flatMap f := by
  rw [List.foldl_append_eq_append, List.flatMap_def]

variable [DecidableEq κ]

/-- With distinct keys, a value is found exactly at its key. -/
theorem lookup_eq_some_iff_mem {entries : List (κ × β)} (h : (entries.map Prod.fst).Nodup)
    {k : κ} {v : β} : entries.lookup k = some v ↔ (k, v) ∈ entries := by
  induction entries with
  | nil => simp
  | cons e entries ih =>
    obtain ⟨k', v'⟩ := e
    rw [List.map_cons, List.nodup_cons] at h
    by_cases hk : k = k'
    · subst hk
      have hnot : (k, v) ∉ entries := fun hm => h.1 (List.mem_map.mpr ⟨_, hm, rfl⟩)
      simp [hnot, eq_comm]
    · rw [List.lookup_cons, show (k == k') = false by simpa using hk, List.mem_cons, ih h.2]
      simp [hk]

/-- The entries at other keys are those that remain when the entry at `k` is taken out. -/
theorem flatMap_perm_lookup {entries : List (κ × β)} (h : (entries.map Prod.fst).Nodup)
    (k : κ) (f : κ × β → List γ) :
    (entries.flatMap f).Perm
      (((entries.lookup k).elim [] fun v => f (k, v)) ++
        (entries.filter (fun e => e.1 ≠ k)).flatMap f) := by
  induction entries with
  | nil => simp
  | cons e entries ih =>
    obtain ⟨k', v'⟩ := e
    rw [List.map_cons, List.nodup_cons] at h
    by_cases hk : k = k'
    · subst hk
      have hrest : entries.filter (fun e => e.1 ≠ k) = entries := by
        refine List.filter_eq_self.mpr fun e he => ?_
        simpa using fun hek : e.1 = k => h.1 (List.mem_map.mpr ⟨e, he, hek⟩)
      rw [List.filter_cons_of_neg (by simp), hrest]
      simp
    · rw [List.lookup_cons, show (k == k') = false by simpa using hk, List.flatMap_cons,
        List.filter_cons_of_pos (by simpa using Ne.symm hk), List.flatMap_cons]
      refine ((ih h.2).append_left (f (k', v'))).trans ?_
      rw [← List.append_assoc, ← List.append_assoc]
      exact List.perm_append_comm.append_right _

/-- With distinct keys, every entry is found at its key. -/
theorem lookup_of_mem {entries : List (κ × β)} (h : (entries.map Prod.fst).Nodup)
    {e : κ × β} (he : e ∈ entries) : entries.lookup e.1 = some e.2 :=
  (lookup_eq_some_iff_mem h).mpr he

/-- A key that is listed has a value. -/
theorem exists_lookup_of_mem_keys {entries : List (κ × β)} {k : κ}
    (hk : k ∈ entries.map Prod.fst) : ∃ v, entries.lookup k = some v := by
  obtain ⟨e, he, rfl⟩ := List.mem_map.mp hk
  exact Option.isSome_iff_exists.mp
    (List.lookup_isSome_iff.mpr ⟨e, he, beq_self_eq_true _⟩)

/-- A key that is not listed has no value. -/
theorem lookup_eq_none_of_notMem_keys {entries : List (κ × β)} {k : κ}
    (hk : k ∉ entries.map Prod.fst) : entries.lookup k = none := by
  refine List.lookup_eq_none_iff.mpr fun e he => ?_
  simpa using fun h : k = e.1 => hk (h ▸ List.mem_map_of_mem he)

/-- Taking out the entry at `k` leaves the values at other keys. -/
theorem lookup_filter_ne {entries : List (κ × β)} {k j : κ} (h : j ≠ k) :
    (entries.filter (fun e => e.1 ≠ k)).lookup j = entries.lookup j := by
  induction entries with
  | nil => rfl
  | cons e entries ih =>
    obtain ⟨k', v'⟩ := e
    by_cases hk : k' = k
    · have hj : (j == k') = false := by simpa [hk] using h
      rw [List.filter_cons_of_neg (by simpa using hk), List.lookup_cons, hj, ih]
    · rw [List.filter_cons_of_pos (by simpa using hk), List.lookup_cons, List.lookup_cons, ih]

/-- Two enumerations of the same keys collect the same, up to order, when they do so at each
key. -/
theorem flatMap_perm_of_lookup {entries entries' : List (κ × β)}
    (h : (entries.map Prod.fst).Nodup)
    (hkeys : (entries.map Prod.fst).Perm (entries'.map Prod.fst)) (f : κ × β → List γ)
    (hf : ∀ k v v', entries.lookup k = some v → entries'.lookup k = some v' →
      (f (k, v)).Perm (f (k, v'))) :
    (entries.flatMap f).Perm (entries'.flatMap f) := by
  induction entries generalizing entries' with
  | nil =>
    have hnil : entries' = [] := List.map_eq_nil_iff.mp hkeys.nil_eq.symm
    rw [hnil]
  | cons e entries ih =>
    obtain ⟨k, v⟩ := e
    have h' : (entries'.map Prod.fst).Nodup := hkeys.nodup_iff.mp h
    rw [List.map_cons, List.nodup_cons] at h
    obtain ⟨v', hv'⟩ : ∃ v', entries'.lookup k = some v' :=
      exists_lookup_of_mem_keys (hkeys.mem_iff.mp List.mem_cons_self)
    have hhead : (f (k, v)).Perm (f (k, v')) := hf k v v' (by simp) hv'
    -- the rest is enumerated by what remains of `entries'` without the key `k`
    have hrest : (entries.map Prod.fst).Perm
        ((entries'.filter (fun e => e.1 ≠ k)).map Prod.fst) := by
      have hself : (entries.map Prod.fst).filter (fun j => decide (j ≠ k)) =
          entries.map Prod.fst :=
        List.filter_eq_self.mpr fun j hj => by simpa using fun e : j = k => h.1 (e ▸ hj)
      have hfilter := hkeys.filter (fun j => decide (j ≠ k))
      rw [List.map_cons, List.filter_cons_of_neg (by simp), hself] at hfilter
      simpa only [List.filter_map, Function.comp_def] using hfilter
    have htail := ih h.2 hrest (fun j w w' hw hw' => by
      have hj : j ≠ k := by
        rintro rfl
        exact h.1 (List.mem_map.mpr ⟨_, (lookup_eq_some_iff_mem h.2).mp hw, rfl⟩)
      refine hf j w w' ?_ (by rwa [lookup_filter_ne hj] at hw')
      rw [List.lookup_cons, show (j == k) = false by simpa using hj]
      exact hw)
    have hsplit := flatMap_perm_lookup h' k f
    rw [hv'] at hsplit
    exact (hhead.append htail).trans hsplit.symm

end AssocList
