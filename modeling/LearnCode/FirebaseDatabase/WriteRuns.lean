import LearnCode.FirebaseDatabase.FWriteTree
import LearnCode.FirebaseDatabase.WriteLayers

/-!
# Runs of the pending writes

The compound write of the visible writes is kept up to date as writes are made and acknowledged:
it is always the one that is made of the visible writes still pending, in their order. So a view
shows the data of the server with exactly these writes carried out on it. Hidden writes, those of
transactions that are not applied locally, are pending beside them.

This holds as long as no visible write is acknowledged while an earlier one above its path is
pending, while a merge that starts above its path has a write at or below it, or while a hidden
write is pending and another visible one is at its path or below it. In the second case the write
of the merge is lost, and in the last the hidden write is shown.

## Main definitions

* `FWriteRecord.updates`: the single writes of a record;
* `Action`, `Permitted`, `perform`: a step of a run, and when it may be made;
* `Reachable`: the write trees of all runs.

## Main results

* `removeWriteId_cases`: what removing a write can do;
* `visibleWrites_resetTree`: layering the writes anew makes hidden ones visible;
* `Reachable.layered`: the visible writes are those of the visible pending records;
* `Reachable.leaves_calculateCompleteEventCacheAtPath`: a view shows the data of the server with
  the visible pending writes carried out on it, in their order;
* `removeWriteId_drops_merge`: an acknowledged overwrite takes a later merge with it.
-/

namespace LearnCode.FirebaseDatabase

open ChildKey PathStore FCompoundWrite

variable {α : Type} {cmp : ChildKey → ChildKey → Ordering}

namespace FWriteRecord

/-- The single writes of a record. -/
def updates (record : FWriteRecord α) : List (List ChildKey × FNode α) :=
  match record.change with
  | .overwrite node => [(record.path, node)]
  | .merge write => write.writeTree.forEach.map fun e => (record.path ++ e.1, e.2)

/-- What is written may be put at its path. -/
def Valid (cmp : ChildKey → ChildKey → Ordering) (record : FWriteRecord α) : Prop :=
  match record.change with
  | .overwrite node => node.Writable record.path
  | .merge write => priorityKey ∉ record.path ∧ WriteTree cmp write.writeTree

theorem prefix_of_mem_updates {record : FWriteRecord α} {u : List ChildKey × FNode α}
    (hu : u ∈ record.updates) : record.path <+: u.1 := by
  obtain ⟨id, path, change, visible⟩ := record
  cases change with
  | overwrite node =>
    rw [List.mem_singleton.mp hu]
  | merge write =>
    obtain ⟨e, -, rfl⟩ := List.mem_map.mp hu
    exact List.prefix_append _ _

theorem allWritable_updates [Std.TransCmp cmp] [Std.LawfulEqCmp cmp] {record : FWriteRecord α}
    (h : record.Valid cmp) : AllWritable record.updates := by
  obtain ⟨id, path, change, visible⟩ := record
  cases change with
  | overwrite node =>
    intro u hu
    rw [List.mem_singleton.mp hu]
    exact h
  | merge write =>
    intro u hu
    obtain ⟨hpath, htree⟩ := h
    obtain ⟨e, he, rfl⟩ := List.mem_map.mp hu
    rw [FNode.writable_append_iff hpath]
    exact writable_of_valueAtPath htree ((FImmutableTree.mem_forEach_iff htree.pruned).mp he)

end FWriteRecord

namespace FWriteTree

open FWriteRecord

/-- A record contains a path when one of its writes is at the path or above it. -/
theorem recordContainsPath_iff {record : FWriteRecord α} {path : List ChildKey} :
    recordContainsPath record path = true ↔ ∃ u ∈ record.updates, u.1 <+: path := by
  obtain ⟨id, p, change, visible⟩ := record
  cases change with
  | overwrite node => simp [recordContainsPath, updates]
  | merge write =>
    simp only [recordContainsPath, updates, List.any_eq_true, decide_eq_true_eq, List.mem_map]
    constructor
    · rintro ⟨e, he, hpre⟩
      exact ⟨_, ⟨e, he, rfl⟩, hpre⟩
    · rintro ⟨_, ⟨e, he, rfl⟩, hpre⟩
      exact ⟨e, he, hpre⟩

/-- From the root on a record is layered by adding its writes. -/
theorem layerRecord_nil (w : FCompoundWrite α) (record : FWriteRecord α) :
    layerRecord cmp [] w record = addAll cmp record.updates w := by
  obtain ⟨id, path, change, visible⟩ := record
  rw [layerRecord, dif_pos List.nil_prefix]
  cases change with
  | overwrite node => rfl
  | merge write => exact addCompoundWrite_eq w write path

/-- From the root on the records that are let through are layered by adding their writes. -/
theorem layerTreeFromWrites_nil (writes : List (FWriteRecord α)) (filter : FWriteRecord α → Bool) :
    layerTreeFromWrites cmp writes filter [] =
      addAll cmp ((writes.filter filter).flatMap updates) emptyWrite := by
  have hfold : ∀ (chosen : List (FWriteRecord α)) (w : FCompoundWrite α),
      chosen.foldl (layerRecord cmp []) w = addAll cmp (chosen.flatMap updates) w := by
    intro chosen
    induction chosen with
    | nil => exact fun _ => rfl
    | cons record chosen ih =>
      intro w
      rw [List.foldl_cons, ih, layerRecord_nil, List.flatMap_cons, addAll_append]
  exact hfold _ emptyWrite

/-- Layering the pending writes anew makes all of them visible, the hidden ones too. -/
theorem visibleWrites_resetTree (s : FWriteTree α) :
    (resetTree cmp s).visibleWrites = addAll cmp (s.allWrites.flatMap updates) emptyWrite := by
  rw [resetTree, layerTreeFromWrites_nil,
    show s.allWrites.filter defaultFilter = s.allWrites from List.filter_true s.allWrites]

-- a hidden write is shown once the first of two visible ones at another place is acknowledged
example :
    let a : ChildKey := ⟨"a", by decide⟩
    let b : ChildKey := ⟨"b", by decide⟩
    let s := ((FWriteTree.init.addOverwriteAtPath keyComparator [a] (.leaf 1 .empty) 0
      false).addOverwriteAtPath keyComparator [b] (.leaf 2 .empty) 1 true).addOverwriteAtPath
      keyComparator [b, a] (.leaf 3 .empty) 2 true
    s.completeWriteDataAtPath keyComparator [a] = none ∧
      (s.removeWriteId keyComparator 1).bind
        (fun result => result.1.completeWriteDataAtPath keyComparator [a]) =
        some (.leaf 1 .empty) :=
  ⟨rfl, rfl⟩

/-- The writes of a record are taken away at their paths. -/
theorem removeRecord_eq (w : FCompoundWrite α) (record : FWriteRecord α) :
    removeRecord cmp w record =
      record.updates.foldl (fun w u => w.removeWriteAtPath cmp u.1) w := by
  obtain ⟨id, path, change, visible⟩ := record
  cases change with
  | overwrite node => rfl
  | merge write => rw [removeRecord, updates, List.foldl_map]

/-! ## Removing a write -/

/-- When the removed write was not visible nothing is left to find. -/
theorem removeLoop_false (writes : List (FWriteRecord α)) (index : ℕ) (w : FWriteRecord α)
    (n : ℕ) (overlaps : Bool) : removeLoop writes index w n false overlaps = (false, overlaps) := by
  cases n <;> rfl

/-- The loop finds whether a later write contains the path of the removed one, and if not whether
another write is at or below it. -/
theorem removeLoop_spec (writes : List (FWriteRecord α)) (index : ℕ) (w : FWriteRecord α) (n : ℕ)
    (overlaps : Bool) :
    ((removeLoop writes index w n true overlaps).1 = true ↔
      ∀ i < n, ∀ r, writes[i]? = some r → r.visible = true →
        ¬(i ≥ index ∧ recordContainsPath r w.path = true)) ∧
    ((removeLoop writes index w n true overlaps).1 = true →
      ((removeLoop writes index w n true overlaps).2 = true ↔
        overlaps = true ∨ ∃ i < n, ∃ r, writes[i]? = some r ∧ r.visible = true ∧
          w.path <+: r.path)) := by
  -- the loop counts down, so the write at the last index left is looked at first
  induction n generalizing overlaps with
  | zero => simp [removeLoop]
  | succ n ih =>
    have hlast : ∀ {P : ℕ → Prop}, (∀ i < n + 1, P i) ↔ (∀ i < n, P i) ∧ P n := by
      intro P
      simp only [Nat.lt_succ_iff_lt_or_eq, or_imp, forall_and, forall_eq]
    have hex : ∀ {P : ℕ → Prop}, (∃ i < n + 1, P i) ↔ (∃ i < n, P i) ∨ P n := by
      intro P
      simp only [Nat.lt_succ_iff_lt_or_eq, or_and_right, exists_or, exists_eq_left]
    obtain ⟨ihvisible, ihoverlaps⟩ := ih overlaps
    rw [hlast, hex]
    simp only [removeLoop, if_true]
    cases hget : writes[n]? with
    | none => exact ⟨ihvisible.trans (by simp), fun h => (ihoverlaps h).trans (by simp)⟩
    | some r =>
      simp only [Option.some.injEq, forall_eq', exists_eq_left']
      cases hvisible : r.visible with
      | false => exact ⟨ihvisible.trans (by simp), fun h => (ihoverlaps h).trans (by simp)⟩
      | true =>
        simp only [if_true, true_imp_iff, true_and]
        by_cases hshadow : n ≥ index ∧ recordContainsPath r w.path = true
        · rw [if_pos hshadow, removeLoop_false]
          simp [hshadow]
        · rw [if_neg hshadow]
          by_cases hbelow : w.path <+: r.path
          · obtain ⟨ihvisible, ihoverlaps⟩ := ih true
            rw [if_pos hbelow, ihvisible]
            refine ⟨by simp [hshadow], fun h => ?_⟩
            rw [ihoverlaps (ihvisible.mpr h)]
            simp [hbelow]
          · rw [if_neg hbelow, ihvisible]
            refine ⟨by simp [hshadow], fun h => ?_⟩
            rw [ihoverlaps (ihvisible.mpr h)]
            simp [hbelow]

/-- The loop over the writes around a visible one: whether no later one contains its path, and
whether one is at or below it. -/
theorem removeLoop_append (pre post : List (FWriteRecord α)) (w : FWriteRecord α) :
    ((removeLoop (pre ++ post) pre.length w (pre ++ post).length true false).1 = true ↔
      ∀ r ∈ post, r.visible = true → recordContainsPath r w.path = false) ∧
    ((removeLoop (pre ++ post) pre.length w (pre ++ post).length true false).1 = true →
      ((removeLoop (pre ++ post) pre.length w (pre ++ post).length true false).2 = true ↔
        ∃ r ∈ pre ++ post, r.visible = true ∧ w.path <+: r.path)) := by
  obtain ⟨hvisible, hoverlaps⟩ :=
    removeLoop_spec (pre ++ post) pre.length w (pre ++ post).length false
  refine ⟨hvisible.trans ⟨fun h r hr hrv => ?_, fun h i _ r hi hrv hcontains => ?_⟩,
    fun h => (hoverlaps h).trans ?_⟩
  · -- the later writes are those from the index on
    obtain ⟨j, hj, rfl⟩ := List.getElem_of_mem hr
    have hget : (pre ++ post)[pre.length + j]? = some post[j] := by
      rw [List.getElem?_append_right (Nat.le_add_right _ _), Nat.add_sub_cancel_left,
        List.getElem?_eq_getElem hj]
    rw [← Bool.not_eq_true]
    exact fun hcontains => h (pre.length + j) (by simpa using hj) _ hget hrv
      ⟨Nat.le_add_right _ _, hcontains⟩
  · rw [List.getElem?_append_right hcontains.1] at hi
    rw [h r (List.mem_of_getElem? hi) hrv] at hcontains
    exact Bool.false_ne_true hcontains.2
  · simp only [Bool.false_eq_true, false_or]
    constructor
    · rintro ⟨i, -, r, hr, hP⟩
      exact ⟨r, List.mem_of_getElem? hr, hP⟩
    · rintro ⟨r, hr, hP⟩
      obtain ⟨i, hi, rfl⟩ := List.getElem_of_mem hr
      exact ⟨i, hi, _, List.getElem?_eq_getElem hi, hP⟩

/-- Removing a write takes its record out, and leaves the visible writes, layers them anew, or
takes away those of the record. -/
theorem removeWriteId_cases {s s' : FWriteTree α} {id : ℤ} {changed : Bool}
    (h : s.removeWriteId cmp id = some (s', changed)) :
    ∃ pre w post, s.allWrites = pre ++ w :: post ∧ w.writeId = id ∧
      (changed = false ∧ s' = { s with allWrites := pre ++ post } ∧
          (w.visible = false ∨
            ∃ r ∈ post, r.visible = true ∧ recordContainsPath r w.path = true) ∨
        changed = true ∧ s' = resetTree cmp { s with allWrites := pre ++ post } ∧
          w.visible = true ∧ (∃ r ∈ pre ++ post, r.visible = true ∧ w.path <+: r.path) ∨
        changed = true ∧
          s' = { s with
            allWrites := pre ++ post
            visibleWrites := removeRecord cmp s.visibleWrites w } ∧ w.visible = true ∧
          (∀ r ∈ post, r.visible = true → recordContainsPath r w.path = false) ∧
          ∀ r ∈ pre ++ post, r.visible = true → ¬w.path <+: r.path) := by
  simp only [removeWriteId] at h
  obtain ⟨index, hindex, h⟩ := Option.bind_eq_some_iff.mp h
  obtain ⟨w, hw, h⟩ := Option.map_eq_some_iff.mp h
  obtain ⟨hlt, hid, -⟩ := List.findIdx?_eq_some_iff_getElem.mp hindex
  obtain rfl : s.allWrites[index] = w := by
    rw [List.getElem?_eq_getElem hlt] at hw
    exact Option.some.inj hw
  have hsplit : s.allWrites =
      s.allWrites.take index ++ s.allWrites[index] :: s.allWrites.drop (index + 1) := by
    rw [← List.drop_eq_getElem_cons hlt, List.take_append_drop]
  have hlen : (s.allWrites.take index).length = index := List.length_take_of_le hlt.le
  rw [List.eraseIdx_eq_take_drop_succ] at h
  refine ⟨s.allWrites.take index, s.allWrites[index], s.allWrites.drop (index + 1), hsplit,
    by simpa using hid, ?_⟩
  generalize s.allWrites.take index = pre at h hlen ⊢
  generalize s.allWrites.drop (index + 1) = post at h ⊢
  generalize s.allWrites[index] = w at h ⊢
  subst hlen
  cases hvisible : w.visible with
  | false =>
    rw [hvisible, removeLoop_false] at h
    cases h
    exact .inl ⟨rfl, rfl, .inl rfl⟩
  | true =>
    obtain ⟨hshadow, hoverlaps⟩ := removeLoop_append pre post w
    rw [hvisible] at h
    generalize removeLoop (pre ++ post) pre.length w (pre ++ post).length true false = result
      at h hshadow hoverlaps
    obtain ⟨wasVisible, overlaps⟩ := result
    cases wasVisible with
    | false =>
      -- a later write covers the removed one
      cases h
      refine .inl ⟨rfl, rfl, .inr ?_⟩
      by_contra hnone
      refine Bool.false_ne_true (hshadow.mpr fun r hr hrv => ?_)
      rw [← Bool.not_eq_true]
      exact fun hcontains => hnone ⟨r, hr, hrv, hcontains⟩
    | true =>
      cases overlaps with
      | true =>
        cases h
        exact .inr (.inl ⟨rfl, rfl, rfl, (hoverlaps rfl).mp rfl⟩)
      | false =>
        cases h
        refine .inr (.inr ⟨rfl, rfl, rfl, hshadow.mp rfl, fun r hr hrv hpre => ?_⟩)
        exact Bool.false_ne_true ((hoverlaps rfl).mpr ⟨r, hr, hrv, hpre⟩)

/-! ## Runs -/

/-- A step of a run. -/
inductive Action (α : Type) : Type where
  | addOverwrite (path : List ChildKey) (newData : FNode α) (writeId : ℤ) (visible : Bool)
  | addMerge (path : List ChildKey) (changedChildren : FCompoundWrite α) (writeId : ℤ)
  | removeWrite (writeId : ℤ)
  | removeAllWrites

/-- Carry out a step. -/
def perform (cmp : ChildKey → ChildKey → Ordering) (s : FWriteTree α) : Action α → FWriteTree α
  | .addOverwrite path newData writeId visible =>
    s.addOverwriteAtPath cmp path newData writeId visible
  | .addMerge path changedChildren writeId => s.addMergeAtPath cmp path changedChildren writeId
  | .removeWrite writeId => ((s.removeWriteId cmp writeId).map Prod.fst).getD s
  | .removeAllWrites => s.removeAllWrites

/-- A visible write may be removed from between earlier and later ones: no earlier visible one is
above its path, none that starts above its path has a write at or below it, and where one is at its
path or below it no hidden write is pending, for then the writes are layered anew, and hidden ones
with them. -/
structure Removable (earlier : List (FWriteRecord α)) (w : FWriteRecord α)
    (later : List (FWriteRecord α)) : Prop where
  above : ∀ r ∈ earlier, r.visible = true → ∀ u ∈ r.updates, u.1 <+: w.path → u.1 = w.path
  below : ∀ r ∈ earlier ++ later, r.visible = true → r.path <+: w.path → r.path ≠ w.path →
    ∀ u ∈ r.updates, ¬w.path <+: u.1
  unhidden : ∀ r ∈ earlier ++ later, r.visible = true → w.path <+: r.path →
    ∀ r' ∈ earlier ++ later, r'.visible = true

/-- A step may be made: ids ascend, what is written may be put at its path, and a visible write is
only removed where it is removable. -/
def Permitted (cmp : ChildKey → ChildKey → Ordering) (s : FWriteTree α) : Action α → Prop
  | .addOverwrite path newData writeId _ => s.lastWriteId < writeId ∧ newData.Writable path
  | .addMerge path changedChildren writeId =>
    s.lastWriteId < writeId ∧ priorityKey ∉ path ∧ WriteTree cmp changedChildren.writeTree
  | .removeWrite writeId => ∀ earlier w later, s.allWrites = earlier ++ w :: later →
      w.writeId = writeId → w.visible = true → Removable earlier w later
  | .removeAllWrites => True

/-- The write trees of all runs. -/
inductive Reachable (cmp : ChildKey → ChildKey → Ordering) : FWriteTree α → Prop
  | init : Reachable cmp FWriteTree.init
  | step {s : FWriteTree α} (action : Action α) :
      Reachable cmp s → Permitted cmp s action → Reachable cmp (s.perform cmp action)

/-- The visible pending records, in the order of their writes. -/
def visibleRecords (s : FWriteTree α) : List (FWriteRecord α) := s.allWrites.filter (·.visible)

/-- The visible writes are those of the visible pending records, in their order. -/
structure Layered (cmp : ChildKey → ChildKey → Ordering) (s : FWriteTree α) : Prop where
  valid : ∀ r ∈ s.allWrites, r.Valid cmp
  ascending : s.allWrites.Pairwise fun r r' => r.writeId < r'.writeId
  le_lastWriteId : ∀ r ∈ s.allWrites, r.writeId ≤ s.lastWriteId
  visibleWrites_eq : s.visibleWrites = addAll cmp (s.visibleRecords.flatMap updates) emptyWrite

section Runs

variable {s : FWriteTree α}

theorem layered_init : Layered cmp (FWriteTree.init : FWriteTree α) where
  valid := by simp [FWriteTree.init]
  ascending := List.Pairwise.nil
  le_lastWriteId := by simp [FWriteTree.init]
  visibleWrites_eq := rfl

/-- A new record with a greater id is layered on top when it is visible. -/
theorem Layered.add (hs : Layered cmp s) {r : FWriteRecord α} (hid : s.lastWriteId < r.writeId)
    (hr : r.Valid cmp) :
    Layered cmp
      { visibleWrites :=
          if r.visible then addAll cmp r.updates s.visibleWrites else s.visibleWrites
        allWrites := s.allWrites ++ [r], lastWriteId := r.writeId } where
  valid := List.forall_mem_append.mpr ⟨hs.valid, by simpa using hr⟩
  ascending := List.pairwise_append.mpr ⟨hs.ascending, List.pairwise_singleton _ _,
    fun r' hr' x hx => by
      rw [List.mem_singleton.mp hx]
      exact lt_of_le_of_lt (hs.le_lastWriteId r' hr') hid⟩
  le_lastWriteId := List.forall_mem_append.mpr
    ⟨fun r' hr' => (lt_of_le_of_lt (hs.le_lastWriteId r' hr') hid).le, by simp⟩
  visibleWrites_eq := by
    simp only [visibleRecords, List.filter_append, List.flatMap_append, addAll_append]
    rw [← visibleRecords, ← hs.visibleWrites_eq]
    cases hvisible : r.visible with
    | true => rw [List.filter_cons_of_pos hvisible, List.filter_nil, List.flatMap_singleton]; rfl
    | false =>
      rw [List.filter_cons_of_neg (by simp [hvisible])]
      rfl

/-- The records around a removed one are layered when the visible writes are theirs. -/
theorem Layered.remove (hs : Layered cmp s) {pre post : List (FWriteRecord α)}
    {w : FWriteRecord α} (hsplit : s.allWrites = pre ++ w :: post)
    {visibleWrites : FCompoundWrite α} {lastWriteId : ℤ}
    (hlast : ∀ r ∈ pre ++ post, r.writeId ≤ lastWriteId)
    (hwrites : visibleWrites =
      addAll cmp (((pre ++ post).filter (·.visible)).flatMap updates) emptyWrite) :
    Layered cmp { visibleWrites, allWrites := pre ++ post, lastWriteId } := by
  have hsub : (pre ++ post).Sublist s.allWrites := by
    rw [hsplit]
    exact (List.sublist_cons_self w post).append_left pre
  exact ⟨fun r hr => hs.valid r (hsub.subset hr), hs.ascending.sublist hsub, hlast, hwrites⟩

/-- In a list with ascending ids the last one is the greatest. -/
theorem writeId_le_getLast {writes : List (FWriteRecord α)}
    (h : writes.Pairwise fun r r' => r.writeId < r'.writeId) {r : FWriteRecord α}
    (hr : r ∈ writes) :
    r.writeId ≤
      match writes.getLast? with
      | some lastRecord => lastRecord.writeId
      | none => -1 := by
  cases hlast : writes.getLast? with
  | none => rw [List.getLast?_eq_none_iff.mp hlast] at hr; cases hr
  | some x =>
    obtain ⟨front, rfl⟩ := List.getLast?_eq_some_iff.mp hlast
    rcases List.mem_append.mp hr with hr | hr
    · exact ((List.pairwise_append.mp h).2.2 r hr x (List.mem_singleton_self x)).le
    · rw [List.mem_singleton.mp hr]

variable [Std.TransCmp cmp] [Std.LawfulEqCmp cmp]

/-- All writes of valid records may be put at their paths. -/
theorem allWritable_flatMap {writes : List (FWriteRecord α)} (h : ∀ r ∈ writes, r.Valid cmp) :
    AllWritable (writes.flatMap updates) := by
  intro u hu
  obtain ⟨r, hr, hu⟩ := List.mem_flatMap.mp hu
  exact allWritable_updates (h r hr) u hu

theorem Layered.writeTree (hs : Layered cmp s) : WriteTree cmp s.visibleWrites.writeTree := by
  rw [hs.visibleWrites_eq]
  exact WriteTree.addAll (allWritable_flatMap fun r hr => hs.valid r (List.mem_of_mem_filter hr))
    writeTree_emptyWrite

/-- Removing a removable write keeps the visible writes those of the visible pending records. -/
theorem Layered.removeWriteId (hs : Layered cmp s) {id : ℤ} {s' : FWriteTree α} {changed : Bool}
    (hpermitted : Permitted cmp s (.removeWrite id))
    (h : s.removeWriteId cmp id = some (s', changed)) : Layered cmp s' := by
  obtain ⟨pre, w, post, hsplit, hid, hcases⟩ := removeWriteId_cases h
  have hsub : (pre ++ post).Sublist s.allWrites := by
    rw [hsplit]
    exact (List.sublist_cons_self w post).append_left pre
  have hlast : ∀ r ∈ pre ++ post, r.writeId ≤ s.lastWriteId :=
    fun r hr => hs.le_lastWriteId r (hsub.subset hr)
  cases hvisible : w.visible with
  | false =>
    -- a hidden write is not among the visible ones
    rcases hcases with ⟨-, rfl, -⟩ | ⟨-, -, hw, -⟩ | ⟨-, -, hw, -⟩
    · refine hs.remove hsplit hlast ?_
      simp only [hs.visibleWrites_eq, visibleRecords, hsplit, List.filter_append,
        List.filter_cons_of_neg (show ¬w.visible = true by simp [hvisible])]
    all_goals rw [hvisible] at hw; cases hw
  | true =>
    obtain ⟨habove, hbelow, hunhidden⟩ := hpermitted pre w post hsplit hid hvisible
    have hvalid : ∀ r ∈ pre ++ w :: post, r.Valid cmp := hsplit ▸ hs.valid
    have hpre : AllWritable ((pre.filter (·.visible)).flatMap updates) :=
      allWritable_flatMap fun r hr =>
        hvalid r (List.mem_append_left _ (List.mem_of_mem_filter hr))
    have hpost : AllWritable ((post.filter (·.visible)).flatMap updates) :=
      allWritable_flatMap fun r hr =>
        hvalid r (List.mem_append_right _ (List.mem_cons_of_mem w (List.mem_of_mem_filter hr)))
    have hw : AllWritable w.updates := allWritable_updates (hvalid w (by simp))
    have hwrites : s.visibleWrites = addAll cmp ((pre.filter (·.visible)).flatMap updates ++
        w.updates ++ (post.filter (·.visible)).flatMap updates) emptyWrite := by
      rw [hs.visibleWrites_eq, visibleRecords, hsplit, List.filter_append,
        List.filter_cons_of_pos hvisible, List.flatMap_append, List.flatMap_cons,
        List.append_assoc]
    rcases hcases with ⟨-, rfl, hshadow⟩ | ⟨-, rfl, -, r, hr, hrv, hwr⟩ | ⟨-, rfl, -, hlater, hover⟩
    · -- a later write covers the removed one, so it was not among the visible writes
      refine hs.remove hsplit hlast ?_
      rw [hwrites, List.filter_append, List.flatMap_append]
      refine addAll_eq_of_shadowed hpre hw hpost (P := w.path) (fun u hu hpre => ?_)
        (fun u hu => prefix_of_mem_updates hu) ?_
      · obtain ⟨r, hr, hu⟩ := List.mem_flatMap.mp hu
        obtain ⟨hr, hrv⟩ := List.mem_filter.mp hr
        exact habove r hr hrv u hu hpre
      · rcases hshadow with hhidden | ⟨r, hr, hrv, hcontains⟩
        · rw [hvisible] at hhidden
          cases hhidden
        · obtain ⟨u, hu, hpre⟩ := recordContainsPath_iff.mp hcontains
          exact ⟨u, List.mem_flatMap.mpr ⟨r, List.mem_filter.mpr ⟨hr, hrv⟩, hu⟩, hpre⟩
    · -- the writes that are left are layered anew, and none of them is hidden
      have hall : (pre ++ post).filter (·.visible) = pre ++ post :=
        List.filter_eq_self.mpr (hunhidden r hr hrv hwr)
      refine hs.remove hsplit (fun r hr => writeId_le_getLast (hs.ascending.sublist hsub) hr) ?_
      rw [hall]
      exact visibleWrites_resetTree _
    · -- the writes at the paths of the removed one are taken away: no other lies around them
      refine hs.remove hsplit hlast ?_
      rw [removeRecord_eq, hwrites, List.filter_append, List.flatMap_append]
      refine foldl_removeWriteAtPath_addAll hpre hw hpost (P := w.path) (fun u hu => ?_)
        (fun u hu => prefix_of_mem_updates hu)
      rw [← List.flatMap_append, ← List.filter_append] at hu
      obtain ⟨r, hr, hu⟩ := List.mem_flatMap.mp hu
      obtain ⟨hr, hrv⟩ := List.mem_filter.mp hr
      have hnot : ¬w.path <+: u.1 := by
        intro hwu
        have hwr := hover r hr hrv
        rcases List.prefix_or_prefix_of_prefix hwu (prefix_of_mem_updates hu) with h | h
        · exact hwr h
        · exact hbelow r hr hrv h (fun heq => hwr (heq ▸ List.prefix_rfl)) u hu hwu
      refine ⟨fun huw => ?_, hnot⟩
      rcases List.mem_append.mp hr with hr | hr
      · exact hnot (habove r hr hrv u hu huw ▸ List.prefix_rfl)
      · have hcontains := hlater r hr hrv
        rw [recordContainsPath_iff.mpr ⟨u, hu, huw⟩] at hcontains
        cases hcontains

/-- In every run the visible writes are those of the visible pending records. -/
theorem Reachable.layered (hs : Reachable cmp s) : Layered cmp s := by
  induction hs with
  | init => exact layered_init
  | @step s action _ hpermitted ih =>
    cases action with
    | addOverwrite path newData writeId visible =>
      exact ih.add (r := ⟨writeId, path, .overwrite newData, visible⟩) hpermitted.1 hpermitted.2
    | addMerge path changedChildren writeId =>
      rw [perform, addMergeAtPath, addCompoundWrite_eq]
      exact ih.add (r := ⟨writeId, path, .merge changedChildren, true⟩) hpermitted.1 hpermitted.2
    | removeWrite writeId =>
      -- where there is no such write nothing changes
      rw [perform]
      cases hremove : s.removeWriteId cmp writeId with
      | none => exact ih
      | some result => exact ih.removeWriteId hpermitted hremove
    | removeAllWrites =>
      exact ⟨by simp [perform, removeAllWrites], List.Pairwise.nil,
        by simp [perform, removeAllWrites], rfl⟩

/-- In every run a view shows the data of the server with the visible pending writes carried out on
it, in their order. Only a leaf of the server above the path of a pending write may be shown
differently. -/
theorem Reachable.leaves_calculateCompleteEventCacheAtPath (hs : Reachable cmp s)
    {server : FNode α} (hserver : server.WellFormed) {path : List ChildKey}
    (hpath : priorityKey ∉ path) :
    ∃ view, s.calculateCompleteEventCacheAtPath cmp path (some (server.getChild path)) none false =
        some view ∧ view.WellFormed ∧
      ∀ q, (∀ r ∈ s.visibleRecords, ∀ u ∈ r.updates, priorityKey ∉ u.1 → path ++ q <+: u.1 →
          path ++ q ≠ u.1 → server.leaves (path ++ q) = none) →
        view.leaves q =
          (updateAll (s.visibleRecords.flatMap updates) server).leaves (path ++ q) := by
  have hlayered := hs.layered
  have htree := hlayered.writeTree
  refine ⟨_, calculateCompleteEventCacheAtPath_eq htree hserver hpath,
    (wellFormed_applyToNode htree hserver).getChild path, fun q hq => ?_⟩
  have hwritable : AllWritable (s.visibleRecords.flatMap updates) :=
    allWritable_flatMap fun r hr => hlayered.valid r (List.mem_of_mem_filter hr)
  rw [← FNode.leaves_append hpath, hlayered.visibleWrites_eq,
    leaves_applyToNode_addAll writeTree_emptyWrite hserver hwritable]
  · rfl
  · intro u hu
    obtain ⟨r, hr, hu⟩ := List.mem_flatMap.mp hu
    exact hq r hr u hu

end Runs

/-- The first of two visible writes is acknowledged, while a hidden one is pending. -/
theorem leaves_calculateCompleteEventCacheAtPath_hiddenWrite :
    let a : ChildKey := ⟨"a", by decide⟩
    let b : ChildKey := ⟨"b", by decide⟩
    let c : ChildKey := ⟨"c", by decide⟩
    let written := ((FWriteTree.init.perform keyComparator
      (.addOverwrite [a] (.leaf 1 .empty) 0 true)).perform keyComparator
      (.addOverwrite [b] (.leaf 2 .empty) 1 true)).perform keyComparator
      (.addOverwrite [b] (.leaf 3 .empty) 2 false)
    let s := written.perform keyComparator (.removeWrite 0)
    let server := FNode.empty.updateChild [c] (.leaf 4 .empty)
    ∃ view, s.calculateCompleteEventCacheAtPath keyComparator [] (some server) none false =
      some view ∧ view.leaves [a] = none ∧ view.leaves [b] = some 2 ∧ view.leaves [c] = some 4 := by
  intro a b c written s server
  let second : FWriteRecord ℕ := ⟨1, [b], .overwrite (.leaf 2 .empty), true⟩
  let third : FWriteRecord ℕ := ⟨2, [b], .overwrite (.leaf 3 .empty), false⟩
  have hremovable : Permitted keyComparator written (.removeWrite 0) := by
    intro earlier w later hsplit hid _
    cases earlier with
    | nil =>
      obtain ⟨rfl, rfl⟩ := List.cons.inj hsplit
      have hapart : ∀ r ∈ [second, third], Apart [a] r.path := by
        intro r hr
        rcases List.mem_pair.mp hr with rfl | rfl <;> exact ⟨by decide, by decide⟩
      exact ⟨by simp, fun r hr _ hpre => absurd hpre (hapart r hr).2,
        fun r hr _ hpre => absurd hpre (hapart r hr).1⟩
    | cons r earlier =>
      -- the ids of the later records are others
      have htail : [second, third] = earlier ++ w :: later := (List.cons.inj hsplit).2
      have hw : w ∈ earlier ++ w :: later := by simp
      rw [← htail] at hw
      rcases List.mem_pair.mp hw with rfl | rfl <;> cases hid
  have hreach : Reachable keyComparator s := by
    refine .step _ (.step _ (.step _ (.step _ .init ⟨by decide, ?_⟩) ⟨by decide, ?_⟩)
      ⟨by decide, ?_⟩) hremovable
    · exact FNode.writable_of_notMem (.leaf 1 .empty) (by decide)
    · exact FNode.writable_of_notMem (.leaf 2 .empty) (by decide)
    · exact FNode.writable_of_notMem (.leaf 3 .empty) (by decide)
  have hserver : server.WellFormed :=
    FNode.WellFormed.empty.updateChild (FNode.writable_of_notMem (.leaf 4 .empty) (by decide))
  obtain ⟨view, hview, -, hleaves⟩ :=
    Reachable.leaves_calculateCompleteEventCacheAtPath hreach hserver
      (List.not_mem_nil (a := priorityKey))
  rw [FNode.getChild_nil] at hview
  refine ⟨view, hview, ?_, ?_, ?_⟩
  · rw [hleaves [a] (fun _ _ _ _ _ _ _ => by decide)]
    decide
  · rw [hleaves [b] (fun _ _ _ _ _ _ _ => by decide)]
    decide
  · rw [hleaves [c] (fun r hr u hu _ hpre hne => ?_)]
    · decide
    · rw [show s.visibleRecords = [second] from rfl, List.mem_singleton] at hr
      subst hr
      rw [List.mem_singleton.mp hu] at hpre
      exact absurd hpre (by decide)

/-! ## A write that is lost -/

section Lost

variable [Std.TransCmp cmp] [Std.LawfulEqCmp cmp]

/-- When an overwrite is acknowledged, the writes below its path of a later merge that starts above
its path are taken away with it, although the merge is still pending. -/
theorem removeWriteId_drops_merge {path mergePath : List ChildKey} {node : FNode α}
    {merge : FCompoundWrite α} (hnode : node.Writable path) (hmerge : WriteTree cmp merge.writeTree)
    (hmergePath : priorityKey ∉ mergePath) (habove : mergePath <+: path) (hne : mergePath ≠ path)
    (hbelow : ∀ e ∈ merge.writeTree.forEach, path <+: mergePath ++ e.1 ∧ mergePath ++ e.1 ≠ path) :
    let s := (FWriteTree.init.addOverwriteAtPath cmp path node 0 true).addMergeAtPath cmp mergePath
      merge 1
    ∃ s', s.removeWriteId cmp 0 = some (s', true) ∧
      s'.allWrites = [⟨1, mergePath, .merge merge, true⟩] ∧ s'.visibleWrites.isEmpty = true := by
  intro s
  have hnotPath : ¬path <+: mergePath := fun h => hne (habove.eq_of_length_le h.length_le)
  have hnotContains :
      recordContainsPath (⟨1, mergePath, .merge merge, true⟩ : FWriteRecord α) path = false := by
    rw [← Bool.not_eq_true, recordContainsPath_iff]
    rintro ⟨u, hu, hpre⟩
    obtain ⟨e, he, rfl⟩ := List.mem_map.mp hu
    obtain ⟨hpath, hne⟩ := hbelow e he
    exact hne (hpre.eq_of_length_le hpath.length_le)
  refine ⟨⟨removeRecord cmp s.visibleWrites ⟨0, path, .overwrite node, true⟩,
    [⟨1, mergePath, .merge merge, true⟩], 1⟩, ?_, rfl, ?_⟩
  · have hloop : removeLoop [⟨1, mergePath, .merge merge, true⟩] 0
        (⟨0, path, .overwrite node, true⟩ : FWriteRecord α) 1 true false = (true, false) := by
      simp [removeLoop, hnotContains, hnotPath]
    have hindex : s.allWrites.findIdx? (fun record => record.writeId = 0) = some 0 := rfl
    rw [removeWriteId, hindex, Option.bind_some,
      show s.allWrites[0]? = some ⟨0, path, .overwrite node, true⟩ from rfl, Option.map_some,
      show s.allWrites.eraseIdx 0 = [⟨1, mergePath, .merge merge, true⟩] from rfl]
    simp only [List.length_singleton, hloop]
    rfl
  · -- all that is visible is at the path or below it
    have hvalid : ∀ r ∈ s.allWrites, r.Valid cmp := by
      intro r hr
      rcases List.mem_cons.mp hr with rfl | hr
      · exact hnode
      · rw [List.mem_singleton.mp hr]
        exact ⟨hmergePath, hmerge⟩
    have hvisible : s.visibleWrites = addAll cmp (s.allWrites.flatMap updates) emptyWrite := by
      change (emptyWrite.addWrite cmp node path).addCompoundWrite cmp merge mergePath = _
      rw [addCompoundWrite_eq]
      change _ = addAll cmp ([(path, node)] ++ (updates ⟨1, mergePath, .merge merge, true⟩ ++ []))
        emptyWrite
      rw [List.append_nil, addAll_append]
      rfl
    change (s.visibleWrites.removeWriteAtPath cmp path).isEmpty = true
    rw [hvisible]
    refine isEmpty_removeWriteAtPath_addAll (allWritable_flatMap hvalid) fun u hu => ?_
    obtain ⟨r, hr, hu⟩ := List.mem_flatMap.mp hu
    rcases List.mem_cons.mp hr with rfl | hr
    · rw [List.mem_singleton.mp hu]
    · rw [List.mem_singleton.mp hr] at hu
      obtain ⟨e, he, rfl⟩ := List.mem_map.mp hu
      exact (hbelow e he).1

/-- An overwrite of a node is acknowledged while an update of a child from the root is pending. -/
theorem removeWriteId_drops_merge_child :
    let a : ChildKey := ⟨"a", by decide⟩
    let b : ChildKey := ⟨"b", by decide⟩
    let merge := emptyWrite.addWrite keyComparator (.leaf 2 .empty) [a, b]
    let s := (FWriteTree.init.addOverwriteAtPath keyComparator [a] (.leaf 1 .empty) 0
      true).addMergeAtPath keyComparator [] merge 1
    ∃ s', s.removeWriteId keyComparator 0 = some (s', true) ∧
      s'.allWrites = [⟨1, [], .merge merge, true⟩] ∧ s'.visibleWrites.isEmpty = true := by
  intro a b merge s
  have hmerge : WriteTree keyComparator merge.writeTree :=
    WriteTree.addWrite writeTree_empty
      (FNode.writable_of_notMem (.leaf 2 .empty) (show priorityKey ∉ [a, b] by decide))
  refine removeWriteId_drops_merge (FNode.writable_of_notMem (.leaf 1 .empty) (by decide)) hmerge
    (by decide) List.nil_prefix (by decide) fun e he => ?_
  have hwrites : merge.writeTree.forEach = [([a, b], .leaf 2 .empty)] := rfl
  rw [hwrites, List.mem_singleton] at he
  rw [he]
  decide

end Lost

end FWriteTree

end LearnCode.FirebaseDatabase
