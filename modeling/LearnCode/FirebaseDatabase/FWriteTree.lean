import LearnCode.FirebaseDatabase.PendingWrites

/-!
# Pending writes

`FWriteTree`: the writes the user has made and the server has not acknowledged, in the order in
which they were made, and a compound write of those that are visible. What a view shows is the data
of the server with this compound write on top.

## Main definitions

* `FWriteRecord`: a write, which replaces a node or is a compound write below a path;
* `FWriteTree`: the pending writes and the compound write of the visible ones;
* `addOverwriteAtPath`, `addMergeAtPath`, `removeWriteId`, `removeAllWrites`: the operations;
* `layerTreeFromWrites`: the compound write of a list of writes, from a path on;
* `calculateCompleteEventCacheAtPath` and its siblings: the data with the writes on top.

## Main results

* `calculateCompleteEventCacheAtPath_eq`: the data at a path with the writes on top is what the
  writes make of all data, read at the path;
* `calculateEventCacheAfterServerOverwriteAtPath_eq`, `calculateCompleteChildAtPath_eq`: the same
  for the ways in which a part of the data is read.
-/

namespace LearnCode.FirebaseDatabase

open ChildKey PathStore FCompoundWrite

/-- What a write changes: `overwrite` or `merge`. -/
inductive FWriteRecord.Change (α : Type) : Type where
  | overwrite (node : FNode α)
  | merge (write : FCompoundWrite α)

/-- `FWriteRecord`. -/
structure FWriteRecord (α : Type) where
  /-- `writeId`. -/
  writeId : ℤ
  /-- `path`. -/
  path : List ChildKey
  /-- `overwrite` or `merge`. -/
  change : FWriteRecord.Change α
  /-- `visible`. -/
  visible : Bool

/-- `FCacheNode`, without the index of its node. -/
structure FCacheNode (α : Type) where
  /-- `node`. -/
  node : FNode α
  /-- `isFullyInitialized`. -/
  isFullyInitialized : Bool
  /-- `isFiltered`. -/
  isFiltered : Bool

namespace FCacheNode

variable {α : Type}

/-- `isCompleteForChild:`. -/
def isCompleteForChild (c : FCacheNode α) (childKey : ChildKey) : Bool :=
  (c.isFullyInitialized && !c.isFiltered) || c.node.hasChild childKey

/-- `isCompleteForPath:`. -/
def isCompleteForPath (c : FCacheNode α) : (path : List ChildKey) → Bool
  | [] => c.isFullyInitialized && !c.isFiltered
  | childKey :: _ => c.isCompleteForChild childKey

end FCacheNode

/-- `FWriteTree`. -/
structure FWriteTree (α : Type) where
  /-- `visibleWrites`. -/
  visibleWrites : FCompoundWrite α
  /-- `allWrites`. -/
  allWrites : List (FWriteRecord α)
  /-- `lastWriteId`. -/
  lastWriteId : ℤ

namespace FWriteTree

variable {α : Type} (cmp : ChildKey → ChildKey → Ordering)

/-- `init`. -/
def init : FWriteTree α := { visibleWrites := emptyWrite, allWrites := [], lastWriteId := -1 }

/-- `addOverwriteAtPath:newData:writeId:isVisible:`. -/
def addOverwriteAtPath (s : FWriteTree α) (path : List ChildKey) (newData : FNode α) (writeId : ℤ)
    (visible : Bool) : FWriteTree α where
  allWrites := s.allWrites ++ [{ writeId, path, change := .overwrite newData, visible }]
  visibleWrites := if visible then s.visibleWrites.addWrite cmp newData path else s.visibleWrites
  lastWriteId := writeId

/-- `addMergeAtPath:changedChildren:writeId:`. -/
def addMergeAtPath (s : FWriteTree α) (path : List ChildKey) (changedChildren : FCompoundWrite α)
    (writeId : ℤ) : FWriteTree α where
  allWrites :=
    s.allWrites ++ [{ writeId, path, change := .merge changedChildren, visible := true }]
  visibleWrites := s.visibleWrites.addCompoundWrite cmp changedChildren path
  lastWriteId := writeId

/-- `writeForId:`. -/
def writeForId (s : FWriteTree α) (writeId : ℤ) : Option (FWriteRecord α) :=
  s.allWrites.find? (fun write => write.writeId = writeId)

/-- `record:containsPath:`. -/
def recordContainsPath (record : FWriteRecord α) (path : List ChildKey) : Bool :=
  match record.change with
  | .overwrite _ => record.path <+: path
  | .merge merge => merge.writeTree.forEach.any fun e => record.path ++ e.1 <+: path

/-- `layerTreeFromWrites:filter:treeRoot:`, for one of the writes. -/
def layerRecord (treeRoot : List ChildKey) (compoundWrite : FCompoundWrite α)
    (record : FWriteRecord α) : FCompoundWrite α :=
  if h : treeRoot <+: record.path then
    let relativePath := FPath.relativePath treeRoot record.path h
    match record.change with
    | .overwrite overwrite => compoundWrite.addWrite cmp overwrite relativePath
    | .merge merge => compoundWrite.addCompoundWrite cmp merge relativePath
  else if h : record.path <+: treeRoot then
    let relativePath := FPath.relativePath record.path treeRoot h
    match record.change with
    | .overwrite overwrite => compoundWrite.addWrite cmp (overwrite.getChild relativePath) []
    | .merge merge =>
      if relativePath.isEmpty then compoundWrite.addCompoundWrite cmp merge []
      else
        match merge.completeNodeAtPath cmp relativePath with
        | some child => compoundWrite.addWrite cmp (child.getChild relativePath.tail) []
        | none => compoundWrite
  else compoundWrite

/-- `layerTreeFromWrites:filter:treeRoot:`. -/
def layerTreeFromWrites (writes : List (FWriteRecord α)) (filter : FWriteRecord α → Bool)
    (treeRoot : List ChildKey) : FCompoundWrite α :=
  (writes.filter filter).foldl (layerRecord cmp treeRoot) emptyWrite

/-- `defaultFilter`. -/
def defaultFilter : FWriteRecord α → Bool := fun _ => true

/-- `resetTree`. -/
def resetTree (s : FWriteTree α) : FWriteTree α :=
  { s with
    visibleWrites := layerTreeFromWrites cmp s.allWrites defaultFilter []
    lastWriteId :=
      match s.allWrites.getLast? with
      | some lastRecord => lastRecord.writeId
      | none => -1 }

/-- The loop of `removeWriteId:` over the other writes, the first `i` of which are left: whether
the removed write was visible, and whether it overlaps with others. -/
def removeLoop (writes : List (FWriteRecord α)) (index : ℕ) (writeToRemove : FWriteRecord α) :
    (i : ℕ) → (removedWriteWasVisible removedWriteOverlaps : Bool) → Bool × Bool
  | 0, visible, overlaps => (visible, overlaps)
  | i + 1, visible, overlaps =>
    if visible then
      match writes[i]? with
      | some currentWrite =>
        if currentWrite.visible then
          if i ≥ index ∧ recordContainsPath currentWrite writeToRemove.path then
            removeLoop writes index writeToRemove i false overlaps
          else if writeToRemove.path <+: currentWrite.path then
            removeLoop writes index writeToRemove i visible true
          else removeLoop writes index writeToRemove i visible overlaps
        else removeLoop writes index writeToRemove i visible overlaps
      | none => removeLoop writes index writeToRemove i visible overlaps
    else (visible, overlaps)

/-- The visible writes without those of a record. -/
def removeRecord (visibleWrites : FCompoundWrite α) (writeToRemove : FWriteRecord α) :
    FCompoundWrite α :=
  match writeToRemove.change with
  | .overwrite _ => visibleWrites.removeWriteAtPath cmp writeToRemove.path
  | .merge merge =>
    merge.writeTree.forEach.foldl
      (fun visibleWrites e => visibleWrites.removeWriteAtPath cmp (writeToRemove.path ++ e.1))
      visibleWrites

/-- `removeWriteId:`: the tree afterwards, and whether the write may have been visible; `none` is
the failure when there is no such write. -/
def removeWriteId (s : FWriteTree α) (writeId : ℤ) : Option (FWriteTree α × Bool) :=
  (s.allWrites.findIdx? (fun record => record.writeId = writeId)).bind fun index =>
    s.allWrites[index]?.map fun writeToRemove =>
      let writes := s.allWrites.eraseIdx index
      let (removedWriteWasVisible, removedWriteOverlaps) :=
        removeLoop writes index writeToRemove writes.length writeToRemove.visible false
      if !removedWriteWasVisible then ({ s with allWrites := writes }, false)
      else if removedWriteOverlaps then (resetTree cmp { s with allWrites := writes }, true)
      else
        ({ s with
          allWrites := writes
          visibleWrites := removeRecord cmp s.visibleWrites writeToRemove }, true)

/-- `removeAllWrites`. -/
def removeAllWrites (s : FWriteTree α) : FWriteTree α :=
  { s with visibleWrites := emptyWrite, allWrites := [] }

/-- `completeWriteDataAtPath:` and `shadowingWriteAtPath:`. -/
def completeWriteDataAtPath (s : FWriteTree α) (path : List ChildKey) : Option (FNode α) :=
  s.visibleWrites.completeNodeAtPath cmp path

/-- The filter of `calculateCompleteEventCacheAtPath:`. -/
def eventCacheFilter (treePath : List ChildKey) (writeIdsToExclude : Option (List ℤ))
    (includeHiddenWrites : Bool) (record : FWriteRecord α) : Bool :=
  (record.visible || includeHiddenWrites) &&
    (writeIdsToExclude.all fun ids => !ids.contains record.writeId) &&
    (decide (record.path <+: treePath) || decide (treePath <+: record.path))

/-- `calculateCompleteEventCacheAtPath:completeServerCache:excludeWriteIds:includeHiddenWrites:`. -/
def calculateCompleteEventCacheAtPath (s : FWriteTree α) (treePath : List ChildKey)
    (completeServerCache : Option (FNode α)) (writeIdsToExclude : Option (List ℤ))
    (includeHiddenWrites : Bool) : Option (FNode α) :=
  if writeIdsToExclude.isNone && !includeHiddenWrites then
    match s.visibleWrites.completeNodeAtPath cmp treePath with
    | some shadowingNode => some shadowingNode
    | none =>
      let subMerge := s.visibleWrites.childCompoundWriteAtPath cmp treePath
      if subMerge.isEmpty then completeServerCache
      else if completeServerCache.isNone && !subMerge.hasCompleteWriteAtPath cmp [] then none
      else some (subMerge.applyToNode (completeServerCache.getD .empty))
  else
    let merge := s.visibleWrites.childCompoundWriteAtPath cmp treePath
    if !includeHiddenWrites && merge.isEmpty then completeServerCache
    else if !includeHiddenWrites && completeServerCache.isNone &&
        !merge.hasCompleteWriteAtPath cmp [] then none
    else
      let mergeAtPath := layerTreeFromWrites cmp s.allWrites
        (eventCacheFilter treePath writeIdsToExclude includeHiddenWrites) treePath
      some (mergeAtPath.applyToNode (completeServerCache.getD .empty))

/-- `calculateEventCacheAfterServerOverwriteAtPath:childPath:existingEventSnap:existingServerSnap:`;
`none` is `nil`, no event is raised. -/
def calculateEventCacheAfterServerOverwriteAtPath (s : FWriteTree α)
    (treePath childPath : List ChildKey) (existingServerSnap : FNode α) : Option (FNode α) :=
  let path := treePath ++ childPath
  if s.visibleWrites.hasCompleteWriteAtPath cmp path then none
  else
    let childMerge := s.visibleWrites.childCompoundWriteAtPath cmp path
    if childMerge.isEmpty then some (existingServerSnap.getChild childPath)
    else some (childMerge.applyToNode (existingServerSnap.getChild childPath))

/-- `calculateCompleteChildAtPath:childKey:cache:`. -/
def calculateCompleteChildAtPath (s : FWriteTree α) (treePath : List ChildKey)
    (childKey : ChildKey) (existingServerCache : FCacheNode α) : Option (FNode α) :=
  let path := treePath ++ [childKey]
  match s.visibleWrites.completeNodeAtPath cmp path with
  | some shadowingNode => some shadowingNode
  | none =>
    if existingServerCache.isCompleteForChild childKey then
      some ((s.visibleWrites.childCompoundWriteAtPath cmp path).applyToNode
        (existingServerCache.node.getImmediateChild childKey))
    else none

variable {cmp}

/-! ## The data with the writes on top -/

section Cache

variable [Std.LawfulEqCmp cmp] {s : FWriteTree α} {server : FNode α} {path : List ChildKey}

omit [Std.LawfulEqCmp cmp] in
/-- Empty writes leave a node as it is. -/
theorem applyToNode_of_isEmpty {w : FCompoundWrite α} (h : w.isEmpty = true) (n : FNode α) :
    w.applyToNode n = n := by
  obtain ⟨t⟩ := w
  rw [show t = .empty from FImmutableTree.isEmpty_iff.mp h]
  exact applyToNode_empty n

/-- The data at a path with the writes on top is what the writes make of all data, read at the
path. -/
theorem calculateCompleteEventCacheAtPath_eq (hs : WriteTree cmp s.visibleWrites.writeTree)
    (hserver : server.WellFormed) (hpath : priorityKey ∉ path) :
    s.calculateCompleteEventCacheAtPath cmp path (some (server.getChild path)) none false =
      some ((s.visibleWrites.applyToNode server).getChild path) := by
  simp only [calculateCompleteEventCacheAtPath, Option.isNone_none, Bool.not_false, Bool.and_self,
    if_true, Option.isNone_some, Bool.false_and, Bool.false_eq_true, if_false, Option.getD_some]
  cases hcomplete : s.visibleWrites.completeNodeAtPath cmp path with
  | some v => rw [getChild_applyToNode_of_completeNodeAtPath hs hserver hpath hcomplete]
  | none =>
    rw [getChild_applyToNode hs hserver hpath]
    simp only
    split
    · rename_i hempty
      rw [applyToNode_of_isEmpty hempty]
    · rfl

omit [Std.LawfulEqCmp cmp] in
/-- Without data of the server there is data where the writes are complete. -/
theorem calculateCompleteEventCacheAtPath_none (hs : WriteTree cmp s.visibleWrites.writeTree)
    (path : List ChildKey) :
    s.calculateCompleteEventCacheAtPath cmp path none none false =
      s.visibleWrites.completeNodeAtPath cmp path := by
  simp only [calculateCompleteEventCacheAtPath, Option.isNone_none, Bool.not_false, Bool.and_self,
    if_true, Bool.true_and]
  cases hcomplete : s.visibleWrites.completeNodeAtPath cmp path with
  | some v => rfl
  | none =>
    obtain ⟨children, hchild⟩ := childCompoundWriteAtPath_of_eq_none hs hcomplete
    simp only [hchild, hasCompleteWriteAtPath, completeNodeAtPath_branch_nil]
    simp

/-- After an update of the server the data is read as before, or is not asked for where the writes
are complete. -/
theorem calculateEventCacheAfterServerOverwriteAtPath_eq
    (hs : WriteTree cmp s.visibleWrites.writeTree) (hserver : server.WellFormed)
    {childPath : List ChildKey} (hpath : priorityKey ∉ path) (hchild : priorityKey ∉ childPath) :
    s.calculateEventCacheAfterServerOverwriteAtPath cmp path childPath (server.getChild path) =
      if s.visibleWrites.hasCompleteWriteAtPath cmp (path ++ childPath) then none
      else some ((s.visibleWrites.applyToNode server).getChild (path ++ childPath)) := by
  have hmem := FNode.priorityKey_notMem_append_iff.mpr ⟨hpath, hchild⟩
  simp only [calculateEventCacheAfterServerOverwriteAtPath]
  rw [getChild_applyToNode hs hserver hmem, FNode.getChild_append hpath]
  split
  · rfl
  · split
    · rename_i hempty
      rw [applyToNode_of_isEmpty hempty]
    · rfl

/-- A write below a path that the server has overwritten is read on top. -/
theorem calculateEventCacheAfterServerOverwriteAtPath_eq_child :
    let w : FCompoundWrite ℕ := emptyWrite.addWrite keyComparator (.leaf 7 .empty)
      [⟨"a", by decide⟩, ⟨"b", by decide⟩]
    ({ visibleWrites := w, allWrites := [], lastWriteId := 0 } :
        FWriteTree ℕ).calculateEventCacheAfterServerOverwriteAtPath keyComparator []
          [⟨"a", by decide⟩] (.leaf 1 .empty) =
      some ((w.applyToNode (.leaf 1 .empty)).getChild [⟨"a", by decide⟩]) := by
  intro w
  have hw : WriteTree keyComparator w.writeTree :=
    writeTree_emptyWrite.addWrite (FNode.writable_of_notMem (.leaf 7 .empty) (by decide))
  have h := calculateEventCacheAfterServerOverwriteAtPath_eq
    (s := { visibleWrites := w, allWrites := [], lastWriteId := 0 }) hw
    (.leaf 1 .empty : (FNode.leaf 1 .empty).WellFormed) (List.not_mem_nil (a := priorityKey))
    (show priorityKey ∉ [⟨"a", by decide⟩] by decide)
  rw [FNode.getChild_nil] at h
  exact h.trans rfl

/-- A child that is complete is read from all data with the writes on top. -/
theorem calculateCompleteChildAtPath_eq (hs : WriteTree cmp s.visibleWrites.writeTree)
    (hserver : server.WellFormed) (hpath : priorityKey ∉ path) {childKey : ChildKey}
    (hkey : childKey ≠ priorityKey) (fullyInitialized filtered : Bool) :
    s.calculateCompleteChildAtPath cmp path childKey
        { node := server.getChild path, isFullyInitialized := fullyInitialized,
          isFiltered := filtered } =
      if s.visibleWrites.hasCompleteWriteAtPath cmp (path ++ [childKey]) ||
          (fullyInitialized && !filtered) || (server.getChild path).hasChild childKey then
        some ((s.visibleWrites.applyToNode server).getChild (path ++ [childKey]))
      else none := by
  have hmem : priorityKey ∉ path ++ [childKey] :=
    FNode.priorityKey_notMem_append_iff.mpr ⟨hpath, by simpa using Ne.symm hkey⟩
  have hread : server.getChild (path ++ [childKey]) =
      (server.getChild path).getImmediateChild childKey := by
    rw [FNode.getChild_append hpath, FNode.getChild_cons hkey, FNode.getChild_nil]
  simp only [calculateCompleteChildAtPath, hasCompleteWriteAtPath, FCacheNode.isCompleteForChild]
  rcases Option.eq_none_or_eq_some (s.visibleWrites.completeNodeAtPath cmp (path ++ [childKey]))
    with hcomplete | ⟨v, hcomplete⟩
  · -- the writes that are left are applied to the child of the cache
    rw [getChild_applyToNode hs hserver hmem, hread]
    simp only [hcomplete, Option.isSome_none, Bool.false_or]
    exact if_congr Iff.rfl rfl rfl
  · -- a complete write shadows the cache
    rw [getChild_applyToNode_of_completeNodeAtPath hs hserver hmem hcomplete]
    simp [hcomplete]

/-- A child that the server has given is read, and so is one that is written, and one of which there
is neither is not. -/
theorem calculateCompleteChildAtPath_eq_written :
    let w : FCompoundWrite ℕ := emptyWrite.addWrite keyComparator (.leaf 7 .empty)
      [⟨"b", by decide⟩]
    let server : FNode ℕ := FNode.empty.updateChild [⟨"a", by decide⟩] (.leaf 1 .empty)
    let read (k : ChildKey) := ({ visibleWrites := w, allWrites := [], lastWriteId := 0 } :
      FWriteTree ℕ).calculateCompleteChildAtPath keyComparator [] k
        { node := server, isFullyInitialized := true, isFiltered := true }
    read ⟨"a", by decide⟩ = some ((w.applyToNode server).getChild [⟨"a", by decide⟩]) ∧
      read ⟨"b", by decide⟩ = some ((w.applyToNode server).getChild [⟨"b", by decide⟩]) ∧
      read ⟨"c", by decide⟩ = none := by
  intro w server read
  have hw : WriteTree keyComparator w.writeTree :=
    writeTree_emptyWrite.addWrite (FNode.writable_of_notMem (.leaf 7 .empty) (by decide))
  have hserver : server.WellFormed :=
    FNode.WellFormed.empty.updateChild (FNode.writable_of_notMem (.leaf 1 .empty) (by decide))
  have h := fun (k : ChildKey) (hk : k ≠ priorityKey) => calculateCompleteChildAtPath_eq
    (s := { visibleWrites := w, allWrites := [], lastWriteId := 0 }) hw hserver
    (List.not_mem_nil (a := priorityKey)) hk true true
  simp only [FNode.getChild_nil, List.nil_append] at h
  refine ⟨(h _ (by decide)).trans ?_, (h _ (by decide)).trans ?_, (h _ (by decide)).trans ?_⟩
  · exact if_pos (by decide)
  · exact if_pos (by decide)
  · exact if_neg (by decide)

end Cache

end FWriteTree

end LearnCode.FirebaseDatabase
