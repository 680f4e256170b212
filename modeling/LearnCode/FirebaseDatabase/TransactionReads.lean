import LearnCode.FirebaseDatabase.WriteRuns

/-!
# What a transaction reads

A transaction is run on the data at its path with the pending writes on top, the hidden ones among
them, except for those it is told to leave out. The writes are layered from the path on: one below
it at what is left of its path, and one above it as what it makes of the path. So the transaction
reads what the writes make of all data, at its path.

A merge that starts above the path is treated in another way. Where it is not complete at the path
its writes below the path are not read at all, and where it is complete the path is followed twice.

## Main definitions

* `seenFrom path u`: a write as it is seen from a path on;
* `FWriteTree.recordsBut`: the pending records except for some;
* `NoMergeAbove`: no merge starts above a path.

## Main results

* `getChild_updateAll`: a child after a run of updates;
* `layerTreeFromWrites_eq`: the layered writes are those seen from the path on;
* `leaves_calculateCompleteEventCacheAtPath_hidden`: what a transaction reads;
* `calculateCompleteEventCacheAtPath_merge_above`: what it reads below the start of a merge.
-/

namespace LearnCode.FirebaseDatabase

open ChildKey PathStore FCompoundWrite

variable {α : Type} {cmp : ChildKey → ChildKey → Ordering}

/-- A write as it is seen from a path on. -/
def seenFrom (path : List ChildKey) (u : List ChildKey × FNode α) :
    Option (List ChildKey × FNode α) :=
  if path <+: u.1 then some (u.1.drop path.length, u.2)
  else if u.1 <+: path then some ([], u.2.getChild (path.drop u.1.length))
  else none

@[simp] theorem seenFrom_append (path q : List ChildKey) (c : FNode α) :
    seenFrom path (path ++ q, c) = some (q, c) := by
  simp [seenFrom]

/-- What is seen is below the path, or is all that is written at the path. -/
theorem seenFrom_cases {path : List ChildKey} {u v : List ChildKey × FNode α}
    (h : seenFrom path u = some v) :
    u = (path ++ v.1, v.2) ∨ ∃ r, path = u.1 ++ r ∧ v = ([], u.2.getChild r) := by
  unfold seenFrom at h
  split at h
  · rename_i hbelow
    obtain ⟨r, hr⟩ := hbelow
    obtain rfl := Option.some.inj h
    refine .inl (Prod.ext ?_ rfl)
    rw [← hr, List.drop_left]
  · split at h
    · rename_i habove
      obtain ⟨r, rfl⟩ := habove
      refine .inr ⟨r, rfl, ?_⟩
      rw [← Option.some.inj h, List.drop_left]
    · cases h

/-- A write apart from the path is not seen. -/
theorem seenFrom_eq_none_iff {path : List ChildKey} {u : List ChildKey × FNode α} :
    seenFrom path u = none ↔ Apart u.1 path := by
  unfold seenFrom Apart
  split
  · rename_i hbelow
    simp [hbelow]
  · split
    · rename_i habove
      simp [habove]
    · rename_i hbelow habove
      simp [hbelow, habove]

section Updates

variable {path : List ChildKey} {us : List (List ChildKey × FNode α)}

/-- What is seen may be put at its path. -/
theorem allWritable_filterMap_seenFrom (hpath : priorityKey ∉ path) (hus : AllWritable us) :
    AllWritable (us.filterMap (seenFrom path)) := by
  intro v hv
  obtain ⟨u, hu, hseen⟩ := List.mem_filterMap.mp hv
  have hwritable := hus u hu
  rcases seenFrom_cases hseen with rfl | ⟨r, -, rfl⟩
  · exact (FNode.writable_append_iff hpath).mp hwritable
  · exact hwritable.wellFormed.getChild r

/-- One update changes the child at a path as it is seen from the path on. -/
theorem getChild_updateChild_seenFrom {n : FNode α} (hn : n.WellFormed)
    (hpath : priorityKey ∉ path) {u : List ChildKey × FNode α} (hu : u.2.Writable u.1) :
    (n.updateChild u.1 u.2).getChild path =
      updateAll (seenFrom path u).toList (n.getChild path) := by
  cases hseen : seenFrom path u with
  | none =>
    exact FNode.getChild_updateChild_of_apart hn hu hpath (seenFrom_eq_none_iff.mp hseen)
  | some v =>
    rcases seenFrom_cases hseen with rfl | ⟨r, rfl, rfl⟩
    · exact FNode.getChild_updateChild_append hn hpath ((FNode.writable_append_iff hpath).mp hu)
    · -- the child is all that is left of the node that was written
      obtain ⟨hu₁, -⟩ := FNode.priorityKey_notMem_append_iff.mp hpath
      have hat := FNode.getChild_updateChild_append hn hu₁ (q := []) hu.wellFormed
      rw [List.append_nil] at hat
      rw [FNode.getChild_append hu₁, hat]
      cases n.getChild u.1 <;> cases n.getChild (u.1 ++ r) <;> rfl

/-- A run of updates changes the child at a path as it is seen from the path on. -/
theorem getChild_updateAll (hpath : priorityKey ∉ path) (hus : AllWritable us) {n : FNode α}
    (hn : n.WellFormed) :
    (updateAll us n).getChild path =
      updateAll (us.filterMap (seenFrom path)) (n.getChild path) := by
  induction us generalizing n with
  | nil => rfl
  | cons u us ih =>
    obtain ⟨hu, hus⟩ := allWritable_cons.mp hus
    -- what the first update does is seen first
    have hstep := getChild_updateChild_seenFrom hn hpath hu
    have hrun := ih hus (hn.updateChild hu)
    rw [hstep] at hrun
    rw [List.filterMap_cons]
    cases hseen : seenFrom path u with
    | none => rw [hseen] at hrun; exact hrun
    | some v => rw [hseen] at hrun; exact hrun

end Updates

namespace FWriteTree

open FWriteRecord

/-- No merge of the records starts above a path. -/
def NoMergeAbove (path : List ChildKey) (writes : List (FWriteRecord α)) : Prop :=
  ∀ r ∈ writes, ∀ merge, r.change = .merge merge → r.path <+: path → r.path = path

/-- A record is not among those that are left out. -/
def isIncluded (writeIdsToExclude : Option (List ℤ)) (record : FWriteRecord α) : Bool :=
  writeIdsToExclude.all fun ids => !ids.contains record.writeId

/-- The pending records except for some. -/
def recordsBut (s : FWriteTree α) (writeIdsToExclude : Option (List ℤ)) : List (FWriteRecord α) :=
  s.allWrites.filter (isIncluded writeIdsToExclude)

/-- Hidden records are let through as the visible ones are. -/
theorem eventCacheFilter_hidden (path : List ChildKey) (writeIdsToExclude : Option (List ℤ))
    (record : FWriteRecord α) :
    eventCacheFilter path writeIdsToExclude true record =
      (isIncluded writeIdsToExclude record &&
        (decide (record.path <+: path) || decide (path <+: record.path))) := by
  rw [eventCacheFilter, Bool.or_true, Bool.true_and]
  rfl

/-- Nothing is seen of a record apart from the path. -/
theorem filterMap_seenFrom_of_apart {path : List ChildKey} {record : FWriteRecord α}
    (h : Apart record.path path) : record.updates.filterMap (seenFrom path) = [] := by
  refine List.filterMap_eq_nil_iff.mpr fun u hu => seenFrom_eq_none_iff.mpr ?_
  obtain ⟨r, hr⟩ := prefix_of_mem_updates hu
  have happend : Apart path (record.path ++ r) := Apart.append_right ⟨h.2, h.1⟩ r
  rw [← hr]
  exact ⟨happend.2, happend.1⟩

/-- A record is layered from a path on by adding what is seen of its writes. -/
theorem layerRecord_eq {treeRoot : List ChildKey} {record : FWriteRecord α}
    (hmerge : ∀ merge, record.change = .merge merge → record.path <+: treeRoot →
      record.path = treeRoot) (w : FCompoundWrite α) :
    layerRecord cmp treeRoot w record =
      addAll cmp (record.updates.filterMap (seenFrom treeRoot)) w := by
  obtain ⟨writeId, path, change, visible⟩ := record
  by_cases hbelow : treeRoot <+: path
  · rw [layerRecord, dif_pos hbelow]
    obtain ⟨r, rfl⟩ := id hbelow
    simp only [FPath.relativePath, List.drop_left]
    cases change with
    | overwrite node => simp [updates, addAll]
    | merge write => simp [updates, addCompoundWrite_eq, List.append_assoc]
  · rw [layerRecord, dif_neg hbelow]
    by_cases habove : path <+: treeRoot
    · rw [dif_pos habove]
      cases change with
      | overwrite node =>
        have hseen : seenFrom treeRoot (path, node) =
            some ([], node.getChild (treeRoot.drop path.length)) := by
          rw [seenFrom, if_neg hbelow, if_pos habove]
        simp [updates, hseen, addAll, FPath.relativePath]
      | merge write => exact absurd (hmerge write rfl habove ▸ List.prefix_rfl) hbelow
    · rw [dif_neg habove, filterMap_seenFrom_of_apart ⟨habove, hbelow⟩]
      rfl

/-- Records are layered from a path on by adding what is seen of their writes. -/
theorem layerTreeFromWrites_eq {treeRoot : List ChildKey} (writes : List (FWriteRecord α))
    (filter : FWriteRecord α → Bool) (hmerge : NoMergeAbove treeRoot (writes.filter filter)) :
    layerTreeFromWrites cmp writes filter treeRoot =
      addAll cmp (((writes.filter filter).flatMap updates).filterMap (seenFrom treeRoot))
        emptyWrite := by
  have hfold : ∀ (chosen : List (FWriteRecord α)) (w : FCompoundWrite α),
      NoMergeAbove treeRoot chosen → chosen.foldl (layerRecord cmp treeRoot) w =
        addAll cmp ((chosen.flatMap updates).filterMap (seenFrom treeRoot)) w := by
    intro chosen
    induction chosen with
    | nil => exact fun _ _ => rfl
    | cons record chosen ih =>
      intro w hmerge
      rw [List.foldl_cons, ih _ fun r hr => hmerge r (List.mem_cons_of_mem record hr),
        layerRecord_eq (hmerge record List.mem_cons_self), List.flatMap_cons,
        List.filterMap_append, addAll_append]
  exact hfold _ emptyWrite hmerge

/-- The filter of a transaction leaves out records apart from the path, of which nothing is seen. -/
theorem filterMap_seenFrom_recordsBut (s : FWriteTree α) (path : List ChildKey)
    (writeIdsToExclude : Option (List ℤ)) :
    ((s.allWrites.filter (eventCacheFilter path writeIdsToExclude true)).flatMap
        updates).filterMap (seenFrom path) =
      ((s.recordsBut writeIdsToExclude).flatMap updates).filterMap (seenFrom path) := by
  rw [recordsBut]
  induction s.allWrites with
  | nil => rfl
  | cons record writes ih =>
    -- a record apart from the path is the only one that the two filters treat differently
    cases hincluded : isIncluded writeIdsToExclude record with
    | false =>
      rw [List.filter_cons_of_neg (by simp [eventCacheFilter_hidden, hincluded]),
        List.filter_cons_of_neg (by simp [hincluded]), ih]
    | true =>
      rw [List.filter_cons_of_pos hincluded, List.flatMap_cons, List.filterMap_append]
      by_cases hnear : record.path <+: path ∨ path <+: record.path
      · rw [List.filter_cons_of_pos (by simpa [eventCacheFilter_hidden, hincluded] using hnear),
          List.flatMap_cons, List.filterMap_append, ih]
      · have hapart := not_or.mp hnear
        rw [List.filter_cons_of_neg (by simpa [eventCacheFilter_hidden, hincluded] using hapart),
          ih, filterMap_seenFrom_of_apart hapart, List.nil_append]

section Reads

variable [Std.TransCmp cmp] [Std.LawfulEqCmp cmp] {s : FWriteTree α}

/-- A transaction reads the data of the server with all pending writes that it does not leave out
carried out on it, in their order, when no merge of these starts above its path. Only a leaf of the
server above the path of a pending write may be read differently. -/
theorem leaves_calculateCompleteEventCacheAtPath_hidden
    (hvalid : ∀ r ∈ s.allWrites, r.Valid cmp) {server : FNode α} (hserver : server.WellFormed)
    {path : List ChildKey} (hpath : priorityKey ∉ path) (writeIdsToExclude : Option (List ℤ))
    (hmerge : NoMergeAbove path (s.recordsBut writeIdsToExclude)) :
    ∃ view, s.calculateCompleteEventCacheAtPath cmp path (some (server.getChild path))
        writeIdsToExclude true = some view ∧ view.WellFormed ∧
      ∀ q, (∀ r ∈ s.recordsBut writeIdsToExclude, ∀ u ∈ r.updates, priorityKey ∉ u.1 →
          path ++ q <+: u.1 → path ++ q ≠ u.1 → server.leaves (path ++ q) = none) →
        view.leaves q =
          (updateAll ((s.recordsBut writeIdsToExclude).flatMap updates) server).leaves
            (path ++ q) := by
  have hwritable : AllWritable ((s.recordsBut writeIdsToExclude).flatMap updates) :=
    allWritable_flatMap fun r hr => hvalid r (List.mem_of_mem_filter hr)
  have hseen := allWritable_filterMap_seenFrom hpath hwritable
  have hchosen : NoMergeAbove path
      (s.allWrites.filter (eventCacheFilter path writeIdsToExclude true)) := by
    intro r hr
    obtain ⟨hr, hfilter⟩ := List.mem_filter.mp hr
    rw [eventCacheFilter_hidden, Bool.and_eq_true] at hfilter
    exact hmerge r (List.mem_filter.mpr ⟨hr, hfilter.1⟩)
  have hserverChild := hserver.getChild path
  have htree := WriteTree.addAll hseen (writeTree_emptyWrite : WriteTree cmp _)
  refine ⟨(addAll cmp _ emptyWrite).applyToNode (server.getChild path), ?_,
    wellFormed_applyToNode htree hserverChild, fun q hq => ?_⟩
  · -- hidden writes are included, so the writes are layered from the path on
    rw [calculateCompleteEventCacheAtPath]
    simp only [Bool.not_true, Bool.and_false, Bool.false_and, Bool.false_eq_true, if_false,
      Option.getD_some]
    rw [layerTreeFromWrites_eq _ _ hchosen, filterMap_seenFrom_recordsBut]
  · rw [leaves_applyToNode_addAll writeTree_emptyWrite hserverChild hseen, FNode.leaves_append hpath,
      getChild_updateAll hpath hwritable hserver]
    · rfl
    · -- only what is seen below the path can have the leaf above it
      intro v hv hvpriority hqv hne
      obtain ⟨u, hu, hseen⟩ := List.mem_filterMap.mp hv
      rcases seenFrom_cases hseen with rfl | ⟨r, -, rfl⟩
      · obtain ⟨r, hr, hu⟩ := List.mem_flatMap.mp hu
        rw [← FNode.leaves_append hpath]
        exact hq r hr _ hu (FNode.priorityKey_notMem_append_iff.mpr ⟨hpath, hvpriority⟩)
          ((List.prefix_append_right_inj path).mpr hqv)
          fun heq => hne (List.append_cancel_left heq)
      · exact absurd (List.prefix_nil.mp hqv) hne

/-- A transaction reads a hidden write on top of a visible one, and the visible one when it leaves
out the other. -/
theorem leaves_calculateCompleteEventCacheAtPath_hidden_leftOut :
    let a : ChildKey := ⟨"a", by decide⟩
    let b : ChildKey := ⟨"b", by decide⟩
    let s := (FWriteTree.init.addOverwriteAtPath keyComparator [a, b] (.leaf 1 .empty) 0
      true).addOverwriteAtPath keyComparator [a] (.children [(b, .leaf 2 .empty)] .empty) 1 false
    let read := fun ids => s.calculateCompleteEventCacheAtPath keyComparator [a] (some .empty) ids
      true
    (∃ view, read none = some view ∧ view.leaves [b] = some 2) ∧
      ∃ view, read (some [1]) = some view ∧ view.leaves [b] = some 1 := by
  intro a b s read
  have hb : (FNode.empty.updateChild [b] (.leaf 2 .empty)).WellFormed :=
    FNode.WellFormed.empty.updateChild (FNode.writable_of_notMem (.leaf 2 .empty) (by decide))
  have hvalid : ∀ r ∈ s.allWrites, r.Valid keyComparator := by
    intro r hr
    rcases List.mem_pair.mp hr with rfl | rfl
    · exact FNode.writable_of_notMem (.leaf 1 .empty) (by decide)
    · exact FNode.writable_of_notMem hb (by decide)
  -- none of the writes is a merge
  have hmerge : ∀ ids, NoMergeAbove [a] (s.recordsBut ids) := by
    intro ids r hr merge hchange
    rcases List.mem_pair.mp (List.mem_of_mem_filter hr) with rfl | rfl <;> cases hchange
  have hread := fun ids => leaves_calculateCompleteEventCacheAtPath_hidden hvalid .empty
    (show priorityKey ∉ [a] by decide) ids (hmerge ids)
  simp only [FNode.getChild_empty] at hread
  obtain ⟨all, hall, -, hallLeaves⟩ := hread none
  obtain ⟨rest, hrest, -, hrestLeaves⟩ := hread (some [1])
  refine ⟨⟨all, hall, ?_⟩, rest, hrest, ?_⟩
  · rw [hallLeaves [b] (fun _ _ _ _ _ _ _ => FNode.leaves_empty _)]
    decide
  · rw [hrestLeaves [b] (fun _ _ _ _ _ _ _ => FNode.leaves_empty _)]
    decide

end Reads

-- a write below a merge from the root is shown, and a transaction does not read it
example :
    let a : ChildKey := ⟨"a", by decide⟩
    let b : ChildKey := ⟨"b", by decide⟩
    let merge := emptyWrite.addWrite keyComparator (.leaf 1 .empty) [a, b]
    let s := FWriteTree.init.addMergeAtPath keyComparator [] merge 0
    let read := s.calculateCompleteEventCacheAtPath keyComparator [a] (some .empty) none
    read false = some (.children [(b, .leaf 1 .empty)] .empty) ∧ read true = some .empty :=
  ⟨rfl, rfl⟩

end FWriteTree

end LearnCode.FirebaseDatabase
