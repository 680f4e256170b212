import LearnCode.FirebaseDatabase.FImmutableTree
import LearnCode.FirebaseDatabase.FPath
import LearnCode.FirebaseDatabase.NodeStore

/-!
# Compound writes

`FCompoundWrite`: several writes as one, in a tree whose values are the nodes that are written. A
write below another one becomes a part of it, so on each path there is one write at most.

## Main definitions

* `addWrite`, `addCompoundWrite`, `removeWriteAtPath`: the writes are added and removed;
* `completeNodeAtPath`, `childCompoundWriteAtPath`: what the writes say about a path;
* `applyToNode`: a node after all writes;
* `WriteTree cmp t`: no write is below another one, and priorities are written as such.

## Main results

* `WriteTree.addWrite`, `WriteTree.subtree`: the operations keep the invariant;
* `applyToNode_eq_foldl`: the writes are updates of the node, one after the other;
* `getChild_applyToNode`: what the writes make of a child is made by those of the child.
-/

namespace LearnCode.FirebaseDatabase

open ChildKey PathStore

/-- `FCompoundWrite`, with leaf values in `α`. -/
structure FCompoundWrite (α : Type) where
  /-- `writeTree`. -/
  writeTree : FImmutableTree ChildKey (FNode α)

namespace FCompoundWrite

variable {α : Type} (cmp : ChildKey → ChildKey → Ordering)

/-- `emptyWrite`. -/
def emptyWrite : FCompoundWrite α := ⟨.empty⟩

/-- `isEmpty`. -/
def isEmpty (w : FCompoundWrite α) : Bool := w.writeTree.isEmpty

/-- `rootWrite`. -/
def rootWrite (w : FCompoundWrite α) : Option (FNode α) := w.writeTree.value

/-- `addWrite:atPath:`. -/
def addWrite (w : FCompoundWrite α) (node : FNode α) (path : List ChildKey) : FCompoundWrite α :=
  if path.isEmpty then ⟨.node (some node) []⟩
  else
    match w.writeTree.findRootMostValueAndPath cmp path with
    | some rootMost =>
      let relativePath := FPath.relativePath rootMost.path path rootMost.isPrefix
      let value := rootMost.value.updateChild relativePath node
      ⟨w.writeTree.setValue cmp value rootMost.path⟩
    | none => ⟨w.writeTree.setTree cmp (.node (some node) []) path⟩

/-- `addCompoundWrite:atPath:`. -/
def addCompoundWrite (w compoundWrite : FCompoundWrite α) (path : List ChildKey) :
    FCompoundWrite α :=
  compoundWrite.writeTree.forEach.foldl
    (fun newWrite e => newWrite.addWrite cmp e.2 (path ++ e.1)) w

/-- `removeWriteAtPath:`. -/
def removeWriteAtPath (w : FCompoundWrite α) (path : List ChildKey) : FCompoundWrite α :=
  if path.isEmpty then emptyWrite else ⟨w.writeTree.setTree cmp .empty path⟩

/-- `completeNodeAtPath:`. -/
def completeNodeAtPath (w : FCompoundWrite α) (path : List ChildKey) : Option (FNode α) :=
  match w.writeTree.findRootMostValueAndPath cmp path with
  | some rootMost =>
    some (rootMost.value.getChild (FPath.relativePath rootMost.path path rootMost.isPrefix))
  | none => none

/-- `hasCompleteWriteAtPath:`. -/
def hasCompleteWriteAtPath (w : FCompoundWrite α) (path : List ChildKey) : Bool :=
  (w.completeNodeAtPath cmp path).isSome

/-- `childCompoundWriteAtPath:`. -/
def childCompoundWriteAtPath (w : FCompoundWrite α) (path : List ChildKey) : FCompoundWrite α :=
  if path.isEmpty then w
  else
    match w.completeNodeAtPath cmp path with
    | some shadowingNode => ⟨.node (some shadowingNode) []⟩
    | none => ⟨w.writeTree.subtreeAtPath cmp path⟩

mutual

/-- `applySubtreeWrite:atPath:toNode:`. -/
def applySubtreeWrite :
    FImmutableTree ChildKey (FNode α) → (relativePath : List ChildKey) → FNode α → FNode α
  | .node (some value) _, relativePath, node => node.updateChild relativePath value
  | .node none children, relativePath, node =>
    let (priorityWrite, blockNode) := applyChildWrites children relativePath (none, node)
    match priorityWrite with
    | some priority =>
      if (blockNode.getChild relativePath).isEmpty then blockNode
      else blockNode.updateChild (relativePath ++ [priorityKey]) priority
    | none => blockNode

/-- The loop of `applySubtreeWrite:atPath:toNode:` over the children, from the priority write and
the node that are current. -/
def applyChildWrites :
    List (ChildKey × FImmutableTree ChildKey (FNode α)) → (relativePath : List ChildKey) →
      Option (FNode α) × FNode α → Option (FNode α) × FNode α
  | [], _, current => current
  | (childKey, childTree) :: rest, relativePath, (priorityWrite, blockNode) =>
    if childKey = priorityKey then
      applyChildWrites rest relativePath (childTree.value, blockNode)
    else
      applyChildWrites rest relativePath
        (priorityWrite, applySubtreeWrite childTree (relativePath ++ [childKey]) blockNode)

end

/-- `applyToNode:`. -/
def applyToNode (w : FCompoundWrite α) (node : FNode α) : FNode α :=
  applySubtreeWrite w.writeTree [] node

/-- No write is below another one, no branch is without a write, and what is written to a priority
is one. -/
inductive WriteTree : FImmutableTree ChildKey (FNode α) → Prop
  | write {node : FNode α} : node.WellFormed → WriteTree (.node (some node) [])
  | branch {children : List (ChildKey × FImmutableTree ChildKey (FNode α))} :
      SortedDict.Sorted cmp children → (∀ e ∈ children, e.2.isEmpty = false) →
      (∀ e ∈ children, e.1 = priorityKey → ∃ node, e.2 = .node (some node) [] ∧ node.IsPriority) →
      (∀ e ∈ children, WriteTree e.2) → WriteTree (.node none children)

variable {cmp}

/-! ## Write trees -/

section WriteTree

variable {t : FImmutableTree ChildKey (FNode α)}

theorem WriteTree.pruned (ht : WriteTree cmp t) : t.Pruned cmp := by
  induction ht with
  | write => exact FImmutableTree.pruned_leaf _
  | branch hs hne hprio hall ih => exact .node none hs hne ih

theorem writeTree_empty : WriteTree cmp (.empty : FImmutableTree ChildKey (FNode α)) :=
  .branch SortedDict.sorted_nil (by simp) (by simp) (by simp)

theorem writeTree_emptyWrite : WriteTree cmp (emptyWrite : FCompoundWrite α).writeTree :=
  writeTree_empty

/-- A missing child is a tree without writes. -/
theorem WriteTree.get_getD {children : List (ChildKey × FImmutableTree ChildKey (FNode α))}
    (ht : WriteTree cmp (.node none children)) (k : ChildKey) :
    WriteTree cmp ((SortedDict.get cmp k children).getD .empty) := by
  cases ht with
  | branch hs hne hprio hall =>
    cases hget : SortedDict.get cmp k children with
    | none => exact writeTree_empty
    | some child =>
      obtain ⟨e, he, -, rfl⟩ := SortedDict.exists_mem_of_get_eq_some hget
      exact hall e he

/-- Below a write there is none. -/
theorem WriteTree.children_eq_nil (ht : WriteTree cmp t) {node : FNode α}
    (hvalue : t.value = some node) : t.children = [] := by
  cases ht with
  | write => rfl
  | branch => cases hvalue

/-- A tree with another one that is not empty at a path is not empty. -/
theorem isEmpty_setTree {newTree : FImmutableTree ChildKey (FNode α)}
    (hnew : newTree.isEmpty = false) (p : List ChildKey)
    (t : FImmutableTree ChildKey (FNode α)) : (t.setTree cmp newTree p).isEmpty = false := by
  induction p generalizing t with
  | nil => exact hnew
  | cons k p ih =>
    rw [FImmutableTree.setTree, FImmutableTree.replaceChild, if_neg (by simp [ih])]
    simp only [FImmutableTree.isEmpty, FImmutableTree.children_node]
    rw [List.isEmpty_eq_false_iff.mpr (SortedDict.insert_ne_nil _ _ _), Bool.and_false]

/-- A write below another one becomes a part of it. -/
theorem addWrite_write (v c : FNode α) (p : List ChildKey) :
    (FCompoundWrite.mk (.node (some v) [])).addWrite cmp c p =
      ⟨.node (some (v.updateChild p c)) []⟩ := by
  cases p with
  | nil => cases v <;> rfl
  | cons k p => rfl

variable (cmp) in
/-- The first write on a path below a branch is that in the child. -/
theorem findRootMostValueAndPath_branch
    (children : List (ChildKey × FImmutableTree ChildKey (FNode α))) (k : ChildKey)
    (p : List ChildKey) :
    (FImmutableTree.node none children).findRootMostValueAndPath cmp (k :: p) =
      (((SortedDict.get cmp k children).getD .empty).findRootMostValueAndPath cmp p).map
        fun found => ⟨k :: found.path, found.value,
          List.cons_prefix_cons.mpr ⟨rfl, found.isPrefix⟩⟩ := by
  rw [FImmutableTree.findRootMostValueAndPath, FImmutableTree.findRootMostMatchingPath,
    FImmutableTree.value_node, FImmutableTree.children_node, Option.filter_none, Option.map_none,
    Option.none_or]
  cases SortedDict.get cmp k children with
  | none =>
    -- without a child at the key there is no value on the rest of the path
    have hempty :
        (FImmutableTree.empty : FImmutableTree ChildKey (FNode α)).findRootMostMatchingPath cmp
          (fun _ => true) p = none := by
      rw [FImmutableTree.findRootMostMatchingPath_eq_none_iff]
      intro r hr
      rw [FImmutableTree.valueAtPath_empty]
      rfl
    rw [Option.getD_none, FImmutableTree.findRootMostValueAndPath, hempty]
    rfl
  | some child => rfl

/-- A write on a path without one is put there. -/
theorem addWrite_of_eq_none {p : List ChildKey}
    (h : t.findRootMostValueAndPath cmp p = none) (c : FNode α) :
    (FCompoundWrite.mk t).addWrite cmp c p = ⟨t.setTree cmp (.node (some c) []) p⟩ := by
  cases p with
  | nil => rfl
  | cons k p => simp only [addWrite, List.isEmpty_cons, Bool.false_eq_true, if_false, h]

/-- A write below another one becomes a part of it. -/
theorem addWrite_of_eq_some (ht : WriteTree cmp t) {p : List ChildKey}
    {rootMost : FTuplePathValue p (FNode α)}
    (h : t.findRootMostValueAndPath cmp p = some rootMost) (c : FNode α) :
    (FCompoundWrite.mk t).addWrite cmp c p =
      ⟨t.setValue cmp (rootMost.value.updateChild
        (FPath.relativePath rootMost.path p rootMost.isPrefix) c) rootMost.path⟩ := by
  cases p with
  | nil =>
    obtain ⟨path, value, hpre⟩ := rootMost
    obtain rfl : path = [] := List.prefix_nil.mp hpre
    have hvalue : t.value = some value := by
      rw [FImmutableTree.findRootMostValueAndPath, FImmutableTree.findRootMostMatchingPath] at h
      obtain ⟨v, hv, hvalue⟩ := Option.map_eq_some_iff.mp h
      cases hvalue
      exact (Option.filter_eq_some_iff.mp hv).1
    have hchildren := ht.children_eq_nil hvalue
    obtain ⟨v, es⟩ := t
    obtain rfl : es = [] := hchildren
    cases value <;> rfl
  | cons k p => simp only [addWrite, List.isEmpty_cons, Bool.false_eq_true, if_false, h]

/-- A write below a branch is one in the child. -/
theorem addWrite_branch {children : List (ChildKey × FImmutableTree ChildKey (FNode α))}
    (ht : WriteTree cmp (.node none children)) (k : ChildKey) (p : List ChildKey) (c : FNode α) :
    (FCompoundWrite.mk (.node none children)).addWrite cmp c (k :: p) =
      ⟨.node none (SortedDict.insert cmp k
        ((FCompoundWrite.mk ((SortedDict.get cmp k children).getD .empty)).addWrite cmp c
          p).writeTree children)⟩ := by
  have hfind := findRootMostValueAndPath_branch cmp children k p
  cases hchild : ((SortedDict.get cmp k children).getD .empty).findRootMostValueAndPath cmp p with
  | none =>
    rw [hchild, Option.map_none] at hfind
    rw [addWrite_of_eq_none hfind, addWrite_of_eq_none hchild, FImmutableTree.setTree,
      FImmutableTree.replaceChild, if_neg]
    · rfl
    · rw [FImmutableTree.children_node, isEmpty_setTree rfl]
      exact Bool.false_ne_true
  | some rootMost =>
    rw [hchild, Option.map_some] at hfind
    rw [addWrite_of_eq_some ht hfind, addWrite_of_eq_some (ht.get_getD k) hchild]
    rfl

/-- A compound write after another write has one. -/
theorem isEmpty_addWrite (ht : WriteTree cmp t) (c : FNode α) (p : List ChildKey) :
    ((FCompoundWrite.mk t).addWrite cmp c p).isEmpty = false := by
  cases p with
  | nil => rfl
  | cons k p =>
    cases ht with
    | write => rfl
    | branch hs hne hprio hall =>
      rw [addWrite_branch (.branch hs hne hprio hall)]
      simp only [isEmpty, FImmutableTree.isEmpty, FImmutableTree.children_node]
      rw [List.isEmpty_eq_false_iff.mpr (SortedDict.insert_ne_nil _ _ _), Bool.and_false]

/-- After another write there is still no write below another one. -/
theorem WriteTree.addWrite [Std.TransCmp cmp] (ht : WriteTree cmp t) {p : List ChildKey}
    {c : FNode α} (hc : c.Writable p) :
    WriteTree cmp ((FCompoundWrite.mk t).addWrite cmp c p).writeTree := by
  induction p generalizing t with
  | nil => exact .write hc
  | cons k p ih =>
    cases ht with
    | write hv =>
      rw [addWrite_write]
      exact .write (hv.updateChild hc)
    | branch hs hne hprio hall =>
      have ht := WriteTree.branch hs hne hprio hall
      rw [addWrite_branch ht]
      rw [FNode.Writable] at hc
      -- each condition holds of the new child, a write tree again, and of the other children
      refine .branch (hs.insert k _)
        (SortedDict.forall_mem_insert (isEmpty_addWrite (ht.get_getD k) c p) hne)
        (SortedDict.forall_mem_insert ?_ hprio)
        (SortedDict.forall_mem_insert (ih (ht.get_getD k) ?_) hall)
      · -- a child at the key of the priority is the write of a priority
        intro hk
        rw [if_pos hk] at hc
        obtain ⟨rfl, hc⟩ := hc
        exact ⟨c, rfl, hc⟩
      · split at hc
        · obtain ⟨rfl, hc⟩ := hc
          exact hc.wellFormed
        · exact hc

/-! ### Complete nodes and branches -/

theorem completeNodeAtPath_write (v : FNode α) (p : List ChildKey) :
    (FCompoundWrite.mk (.node (some v) [])).completeNodeAtPath cmp p = some (v.getChild p) := by
  cases p <;> rfl

theorem completeNodeAtPath_branch_nil
    (children : List (ChildKey × FImmutableTree ChildKey (FNode α))) :
    (FCompoundWrite.mk (.node none children)).completeNodeAtPath cmp [] = none := rfl

theorem completeNodeAtPath_branch
    (children : List (ChildKey × FImmutableTree ChildKey (FNode α))) (k : ChildKey)
    (p : List ChildKey) :
    (FCompoundWrite.mk (.node none children)).completeNodeAtPath cmp (k :: p) =
      (FCompoundWrite.mk ((SortedDict.get cmp k children).getD .empty)).completeNodeAtPath cmp
        p := by
  rw [completeNodeAtPath, findRootMostValueAndPath_branch, completeNodeAtPath]
  cases ((SortedDict.get cmp k children).getD .empty).findRootMostValueAndPath cmp p <;> rfl

theorem childCompoundWriteAtPath_nil (w : FCompoundWrite α) :
    w.childCompoundWriteAtPath cmp [] = w := rfl

theorem childCompoundWriteAtPath_write (v : FNode α) (p : List ChildKey) :
    (FCompoundWrite.mk (.node (some v) [])).childCompoundWriteAtPath cmp p =
      ⟨.node (some (v.getChild p)) []⟩ := by
  cases p with
  | nil => rw [childCompoundWriteAtPath_nil, FNode.getChild_nil]
  | cons k p =>
    simp only [childCompoundWriteAtPath, List.isEmpty_cons, Bool.false_eq_true, if_false,
      completeNodeAtPath_write]

/-- The writes below a path through a branch are those of the child. -/
theorem childCompoundWriteAtPath_branch
    {children : List (ChildKey × FImmutableTree ChildKey (FNode α))}
    (ht : WriteTree cmp (.node none children)) (k : ChildKey) (p : List ChildKey) :
    (FCompoundWrite.mk (.node none children)).childCompoundWriteAtPath cmp (k :: p) =
      (FCompoundWrite.mk ((SortedDict.get cmp k children).getD .empty)).childCompoundWriteAtPath
        cmp p := by
  have hsub : (FImmutableTree.node none children).subtreeAtPath cmp (k :: p) =
      ((SortedDict.get cmp k children).getD .empty).subtreeAtPath cmp p := by
    rw [FImmutableTree.subtreeAtPath, FImmutableTree.children_node]
    cases SortedDict.get cmp k children with
    | none => cases p <;> rfl
    | some child => rfl
  have hchild := ht.get_getD k
  simp only [childCompoundWriteAtPath, List.isEmpty_cons, Bool.false_eq_true, if_false,
    completeNodeAtPath_branch, hsub]
  cases p with
  | nil =>
    -- the child is given whether it is a write or a branch
    generalize (SortedDict.get cmp k children).getD .empty = child at hchild
    cases hchild with
    | write => rw [completeNodeAtPath_write, FNode.getChild_nil]; rfl
    | branch => rfl
  | cons j p => rfl

/-- The writes below a path are a tree with no write below another one. -/
theorem WriteTree.childCompoundWriteAtPath (ht : WriteTree cmp t) (p : List ChildKey) :
    WriteTree cmp ((FCompoundWrite.mk t).childCompoundWriteAtPath cmp p).writeTree := by
  induction p generalizing t with
  | nil => exact ht
  | cons k p ih =>
    cases ht with
    | write hv =>
      rw [childCompoundWriteAtPath_write]
      exact .write (hv.getChild _)
    | branch hs hne hprio hall =>
      have ht := WriteTree.branch hs hne hprio hall
      rw [childCompoundWriteAtPath_branch ht]
      exact ih (ht.get_getD k)

/-- A complete node is well formed. -/
theorem WriteTree.completeNodeAtPath (ht : WriteTree cmp t) {p : List ChildKey} {v : FNode α}
    (h : (FCompoundWrite.mk t).completeNodeAtPath cmp p = some v) : v.WellFormed := by
  induction p generalizing t with
  | nil =>
    cases ht with
    | write hv =>
      rw [completeNodeAtPath_write, FNode.getChild_nil] at h
      exact Option.some.inj h ▸ hv
    | branch => cases h
  | cons k p ih =>
    cases ht with
    | write hv =>
      rw [completeNodeAtPath_write] at h
      exact Option.some.inj h ▸ hv.getChild _
    | branch hs hne hprio hall =>
      rw [completeNodeAtPath_branch] at h
      exact ih ((WriteTree.branch hs hne hprio hall).get_getD k) h

/-- Where the writes are complete, the writes below are one of the complete node. -/
theorem childCompoundWriteAtPath_of_completeNodeAtPath (ht : WriteTree cmp t) {p : List ChildKey}
    {v : FNode α} (h : (FCompoundWrite.mk t).completeNodeAtPath cmp p = some v) :
    (FCompoundWrite.mk t).childCompoundWriteAtPath cmp p = ⟨.node (some v) []⟩ := by
  induction p generalizing t with
  | nil =>
    cases ht with
    | write =>
      rw [completeNodeAtPath_write] at h
      rw [childCompoundWriteAtPath_write, Option.some.inj h]
    | branch => cases h
  | cons k p ih =>
    cases ht with
    | write =>
      rw [completeNodeAtPath_write] at h
      rw [childCompoundWriteAtPath_write, Option.some.inj h]
    | branch hs hne hprio hall =>
      have ht := WriteTree.branch hs hne hprio hall
      rw [completeNodeAtPath_branch] at h
      rw [childCompoundWriteAtPath_branch ht]
      exact ih (ht.get_getD k) h

/-- Where the writes are not complete, those below are a branch. -/
theorem childCompoundWriteAtPath_of_eq_none (ht : WriteTree cmp t) {p : List ChildKey}
    (h : (FCompoundWrite.mk t).completeNodeAtPath cmp p = none) :
    ∃ children, (FCompoundWrite.mk t).childCompoundWriteAtPath cmp p = ⟨.node none children⟩ := by
  induction p generalizing t with
  | nil =>
    cases ht with
    | write => rw [completeNodeAtPath_write] at h; cases h
    | branch => exact ⟨_, rfl⟩
  | cons k p ih =>
    cases ht with
    | write => rw [completeNodeAtPath_write] at h; cases h
    | branch hs hne hprio hall =>
      have ht := WriteTree.branch hs hne hprio hall
      rw [completeNodeAtPath_branch] at h
      rw [childCompoundWriteAtPath_branch ht]
      exact ih (ht.get_getD k) h

end WriteTree

/-! ## Applying the writes -/

/-- A step in applying the writes to a node: an update, or that of a priority, which is left out
where the node is empty. -/
inductive WriteStep (α : Type) : Type where
  | update (path : List ChildKey) (newChild : FNode α)
  | priority (path : List ChildKey) (newPriority : FNode α)

namespace WriteStep

/-- Carry out a step. -/
def perform (n : FNode α) : WriteStep α → FNode α
  | update path newChild => n.updateChild path newChild
  | priority path newPriority =>
    if (n.getChild path).isEmpty then n
    else n.updateChild (path ++ [priorityKey]) newPriority

/-- The step below a path. -/
def under (p : List ChildKey) : WriteStep α → WriteStep α
  | update path newChild => update (p ++ path) newChild
  | priority path newPriority => priority (p ++ path) newPriority

/-- The path holds no priority, and what is written is well formed. -/
def Valid : WriteStep α → Prop
  | update path newChild => priorityKey ∉ path ∧ newChild.WellFormed
  | priority path newPriority => priorityKey ∉ path ∧ newPriority.IsPriority

/-- What a step does to the leaves: the update of a priority changes none. -/
def op : WriteStep α → Option (Op ChildKey α)
  | update path newChild => some (FNode.updateOp path newChild)
  | priority .. => none

variable {s : WriteStep α} {n : FNode α} {p : List ChildKey}

theorem Valid.under (hs : s.Valid) (hp : priorityKey ∉ p) : (s.under p).Valid := by
  cases s with
  | update path c => exact ⟨FNode.priorityKey_notMem_append_iff.mpr ⟨hp, hs.1⟩, hs.2⟩
  | priority path c => exact ⟨FNode.priorityKey_notMem_append_iff.mpr ⟨hp, hs.1⟩, hs.2⟩

/-- The priority of a node may be written at a path without one. -/
theorem writable_priority {c : FNode α} (hc : c.IsPriority) (hp : priorityKey ∉ p) :
    c.Writable (p ++ [priorityKey]) :=
  (FNode.writable_append_iff hp).mpr (by simpa [FNode.Writable] using hc)

theorem wellFormed_perform (hn : n.WellFormed) (hs : s.Valid) : (s.perform n).WellFormed := by
  cases s with
  | update path c => exact hn.updateChild (FNode.writable_of_notMem hs.2 hs.1)
  | priority path c =>
    simp only [perform]
    split
    · exact hn
    · exact hn.updateChild (writable_priority hs.2 hs.1)

/-- A step below a path is one of the node there. -/
theorem getChild_perform_under (hn : n.WellFormed) (hs : s.Valid) (hp : priorityKey ∉ p) :
    ((s.under p).perform n).getChild p = s.perform (n.getChild p) := by
  cases s with
  | update path c =>
    exact FNode.getChild_updateChild_append hn hp (FNode.writable_of_notMem hs.2 hs.1)
  | priority path c =>
    simp only [under, perform, FNode.getChild_append hp]
    split
    · rfl
    · rw [List.append_assoc]
      exact FNode.getChild_updateChild_append hn hp (writable_priority hs.2 hs.1)

/-- A step below a path is not seen apart from it. -/
theorem getChild_perform_of_apart (hn : n.WellFormed) (hs : s.Valid) (hp : priorityKey ∉ p)
    {q : List ChildKey} (hq : priorityKey ∉ q) (hpq : Apart q p) :
    ((s.under p).perform n).getChild q = n.getChild q := by
  have happend : ∀ r, Apart (p ++ r) q := fun r => (hpq.append_right r).symm
  have hvalid := hs.under hp
  cases s with
  | update path c =>
    exact FNode.getChild_updateChild_of_apart hn (FNode.writable_of_notMem hvalid.2 hvalid.1) hq
      (happend path)
  | priority path c =>
    simp only [under, perform]
    split
    · rfl
    · refine FNode.getChild_updateChild_of_apart hn (writable_priority hvalid.2 hvalid.1) hq ?_
      rw [List.append_assoc]
      exact happend _

/-- What a step does to the leaves. -/
theorem leaves_perform (hn : n.WellFormed) (hs : s.Valid) :
    (s.perform n).leaves = applyAll s.op.toList n.leaves := by
  cases s with
  | update path c => exact FNode.leaves_updateChild hn hs.2 hs.1
  | priority path c =>
    simp only [perform]
    split
    · rfl
    · exact FNode.leaves_updateChild_priorityKey hn hs.2 hs.1

end WriteStep

/-- The priority that is written by the children of a branch. -/
def priorityWrite (children : List (ChildKey × FImmutableTree ChildKey (FNode α))) :
    Option (FNode α) :=
  children.foldl (fun current e => if e.1 = priorityKey then e.2.value else current) none

mutual

/-- The steps in applying a write tree. -/
def steps : FImmutableTree ChildKey (FNode α) → (path : List ChildKey) → List (WriteStep α)
  | .node (some value) _, path => [.update path value]
  | .node none children, path =>
    childSteps children path ++ ((priorityWrite children).map (.priority path)).toList

/-- The steps in applying the writes of the children. -/
def childSteps :
    List (ChildKey × FImmutableTree ChildKey (FNode α)) → (path : List ChildKey) →
      List (WriteStep α)
  | [], _ => []
  | (childKey, childTree) :: rest, path =>
    (if childKey = priorityKey then [] else steps childTree (path ++ [childKey])) ++
      childSteps rest path

end

section Apply

variable {t : FImmutableTree ChildKey (FNode α)}

/-- The steps of one child after the other. -/
theorem childSteps_eq_flatMap (children : List (ChildKey × FImmutableTree ChildKey (FNode α)))
    (path : List ChildKey) :
    childSteps children path =
      children.flatMap fun e =>
        if e.1 = priorityKey then [] else steps e.2 (path ++ [e.1]) := by
  induction children with
  | nil => rfl
  | cons e es ih => rw [childSteps, ih, List.flatMap_cons]

/-- The writes are applied step by step. -/
theorem applySubtreeWrite_eq_foldl (ht : WriteTree cmp t) (path : List ChildKey) (n : FNode α) :
    applySubtreeWrite t path n = (steps t path).foldl WriteStep.perform n := by
  induction ht generalizing path n with
  | write => rfl
  | @branch children hs hne hprio hall ih =>
    -- the loop over the children keeps the last priority apart and performs the other steps
    have hloop : ∀ es : List (ChildKey × FImmutableTree ChildKey (FNode α)),
        (∀ e ∈ es, e ∈ children) → ∀ current : Option (FNode α) × FNode α,
        applyChildWrites es path current =
          (es.foldl (fun current e => if e.1 = priorityKey then e.2.value else current) current.1,
            (childSteps es path).foldl WriteStep.perform current.2) := by
      intro es hes
      induction es with
      | nil => intro current; rfl
      | cons e es ihes =>
        intro current
        have htail := ihes fun e' he' => hes e' (List.mem_cons_of_mem e he')
        simp only [applyChildWrites, childSteps, List.foldl_cons, List.foldl_append]
        split
        · rw [htail]
          rfl
        · rw [htail, ih e (hes e List.mem_cons_self)]
    rw [applySubtreeWrite, hloop children (fun _ he => he), steps, List.foldl_append]
    change (match priorityWrite children with
      | some priority => _
      | none => _) = _
    cases priorityWrite children <;> rfl

/-- The steps below a path. -/
theorem steps_append (ht : WriteTree cmp t) (p q : List ChildKey) :
    steps t (p ++ q) = (steps t q).map (WriteStep.under p) := by
  induction ht generalizing q with
  | write => rfl
  | @branch children hs hne hprio hall ih =>
    rw [steps, steps, childSteps_eq_flatMap, childSteps_eq_flatMap, List.map_append,
      List.map_flatMap]
    congr 1
    · refine List.flatMap_congr fun e he => ?_
      split
      · rfl
      · rw [List.append_assoc, ih e he]
    · cases priorityWrite children <;> rfl

/-- A priority that is written is one. -/
theorem isPriority_of_priorityWrite {children : List (ChildKey × FImmutableTree ChildKey (FNode α))}
    (hprio : ∀ e ∈ children, e.1 = priorityKey →
      ∃ node, e.2 = .node (some node) [] ∧ node.IsPriority) {c : FNode α}
    (h : priorityWrite children = some c) : c.IsPriority := by
  -- by induction on the loop: the current priority is none, or that of a child that was looked at
  have hloop : ∀ es : List (ChildKey × FImmutableTree ChildKey (FNode α)),
      (∀ e ∈ es, e ∈ children) →
      ∀ current : Option (FNode α), (∀ c, current = some c → c.IsPriority) →
      ∀ c, es.foldl (fun current e => if e.1 = priorityKey then e.2.value else current) current =
        some c → c.IsPriority := by
    intro es
    induction es with
    | nil => exact fun _ _ hcurrent => hcurrent
    | cons e es ih =>
      intro hes current hcurrent
      refine ih (fun e' he' => hes e' (List.mem_cons_of_mem e he')) _ fun c hc => ?_
      simp only at hc
      split at hc
      · rename_i hkey
        obtain ⟨node, hnode, hpriority⟩ := hprio e (hes e List.mem_cons_self) hkey
        rw [hnode] at hc
        exact Option.some.inj hc ▸ hpriority
      · exact hcurrent c hc
  exact hloop children (fun _ he => he) none (by simp) c h

/-- All steps are valid. -/
theorem valid_of_mem_steps (ht : WriteTree cmp t) {path : List ChildKey}
    (hpath : priorityKey ∉ path) {s : WriteStep α} (hs : s ∈ steps t path) : s.Valid := by
  induction ht generalizing path with
  | write hv =>
    rw [steps, List.mem_singleton] at hs
    rw [hs]
    exact ⟨hpath, hv⟩
  | @branch children hsorted hne hprio hall ih =>
    rw [steps, childSteps_eq_flatMap, List.mem_append, List.mem_flatMap] at hs
    rcases hs with ⟨e, he, hs⟩ | hs
    · split at hs
      · cases hs
      · rename_i hkey
        exact ih e he (FNode.priorityKey_notMem_append_iff.mpr
          ⟨hpath, by simpa using Ne.symm hkey⟩) hs
    · obtain ⟨c, hc, rfl⟩ := Option.map_eq_some_iff.mp (Option.mem_toList.mp hs)
      exact ⟨hpath, isPriority_of_priorityWrite hprio hc⟩

/-- Valid steps keep a node well formed. -/
theorem wellFormed_foldl {ss : List (WriteStep α)} (hss : ∀ s ∈ ss, s.Valid) {n : FNode α}
    (hn : n.WellFormed) : (ss.foldl WriteStep.perform n).WellFormed := by
  induction ss generalizing n with
  | nil => exact hn
  | cons s ss ih =>
    exact ih (fun s' hs' => hss s' (List.mem_cons_of_mem s hs'))
      (WriteStep.wellFormed_perform hn (hss s List.mem_cons_self))

/-- Steps below a path are steps of the node there. -/
theorem getChild_foldl_under {ss : List (WriteStep α)} (hss : ∀ s ∈ ss, s.Valid) {n : FNode α}
    (hn : n.WellFormed) {p : List ChildKey} (hp : priorityKey ∉ p) :
    ((ss.map (WriteStep.under p)).foldl WriteStep.perform n).getChild p =
      ss.foldl WriteStep.perform (n.getChild p) := by
  induction ss generalizing n with
  | nil => rfl
  | cons s ss ih =>
    have hs := hss s List.mem_cons_self
    rw [List.map_cons, List.foldl_cons, List.foldl_cons,
      ih (fun s' hs' => hss s' (List.mem_cons_of_mem s hs'))
        (WriteStep.wellFormed_perform hn (hs.under hp)),
      WriteStep.getChild_perform_under hn hs hp]

/-- Steps below a path are not seen apart from it. -/
theorem getChild_foldl_of_apart {ss : List (WriteStep α)} (hss : ∀ s ∈ ss, s.Valid) {n : FNode α}
    (hn : n.WellFormed) {p q : List ChildKey} (hp : priorityKey ∉ p) (hq : priorityKey ∉ q)
    (hpq : Apart q p) :
    ((ss.map (WriteStep.under p)).foldl WriteStep.perform n).getChild q = n.getChild q := by
  induction ss generalizing n with
  | nil => rfl
  | cons s ss ih =>
    have hs := hss s List.mem_cons_self
    rw [List.map_cons, List.foldl_cons, ih (fun s' hs' => hss s' (List.mem_cons_of_mem s hs'))
      (WriteStep.wellFormed_perform hn (hs.under hp)),
      WriteStep.getChild_perform_of_apart hn hs hp hq hpq]

/-- What steps do to the leaves. -/
theorem leaves_foldl {ss : List (WriteStep α)} (hss : ∀ s ∈ ss, s.Valid) {n : FNode α}
    (hn : n.WellFormed) :
    (ss.foldl WriteStep.perform n).leaves = applyAll (ss.filterMap WriteStep.op) n.leaves := by
  induction ss generalizing n with
  | nil => rfl
  | cons s ss ih =>
    have hs := hss s List.mem_cons_self
    rw [List.foldl_cons, ih (fun s' hs' => hss s' (List.mem_cons_of_mem s hs'))
      (WriteStep.wellFormed_perform hn hs), WriteStep.leaves_perform hn hs, ← applyAll_append]
    congr 1
    cases hop : s.op <;> simp [hop]

/-- A node after well-formed writes is well formed. -/
theorem wellFormed_applyToNode {w : FCompoundWrite α} (hw : WriteTree cmp w.writeTree)
    {n : FNode α} (hn : n.WellFormed) : (w.applyToNode n).WellFormed := by
  rw [applyToNode, applySubtreeWrite_eq_foldl hw]
  exact wellFormed_foldl (fun _ hs => valid_of_mem_steps hw (by simp) hs) hn

theorem applyToNode_write (v n : FNode α) :
    (FCompoundWrite.mk (.node (some v) [])).applyToNode n = v := by
  simp [applyToNode, applySubtreeWrite, FNode.updateChild]

theorem applyToNode_empty (n : FNode α) : (emptyWrite : FCompoundWrite α).applyToNode n = n := rfl

variable [Std.LawfulEqCmp cmp]

/-- Of the steps of the children those at a key make up its child. -/
theorem getChild_foldl_childSteps {es : List (ChildKey × FImmutableTree ChildKey (FNode α))}
    (hs : SortedDict.Sorted cmp es) (hall : ∀ e ∈ es, WriteTree cmp e.2) {k : ChildKey}
    (hk : k ≠ priorityKey) {n : FNode α} (hn : n.WellFormed) :
    ((childSteps es []).foldl WriteStep.perform n).getChild [k] =
      (FCompoundWrite.mk ((SortedDict.get cmp k es).getD .empty)).applyToNode (n.getChild [k]) := by
  induction es generalizing n with
  | nil => rfl
  | cons e es ih =>
    obtain ⟨hlt, hs⟩ := SortedDict.sorted_cons.mp hs
    have htail := fun {n : FNode α} hn => ih (n := n) hs
      (fun e' he' => hall e' (List.mem_cons_of_mem e he')) hn
    have he := hall e List.mem_cons_self
    have hkey : cmp k e.1 = .eq ↔ k = e.1 := Std.LawfulEqCmp.compare_eq_iff_eq
    rw [childSteps, List.foldl_append, SortedDict.get_cons]
    by_cases hprio : e.1 = priorityKey
    · -- the child at the key of the priority has no step here
      rw [if_pos hprio, List.foldl_nil, if_neg (fun h => hk ((hkey.mp h).trans hprio)), htail hn]
    · have hvalid : ∀ s ∈ steps e.2 [], s.Valid := fun s hs => valid_of_mem_steps he (by simp) hs
      have hmem : priorityKey ∉ [e.1] := by simpa using Ne.symm hprio
      have hwf : ((steps e.2 ([] ++ [e.1])).foldl WriteStep.perform n).WellFormed :=
        wellFormed_foldl (fun s hs => valid_of_mem_steps he hmem hs) hn
      rw [if_neg hprio, htail hwf]
      rw [List.nil_append, ← List.append_nil [e.1], steps_append he]
      by_cases hke : k = e.1
      · -- no other child is at the key
        have hnone : SortedDict.get cmp k es = none := by
          rw [SortedDict.get_eq_none_iff]
          intro e' he' heq
          have hlt' := hlt e' he'
          rw [← hke, heq] at hlt'
          cases hlt'
        subst hke
        rw [hnone, if_pos Std.ReflCmp.compare_self, getChild_foldl_under hvalid hn hmem,
          ← applySubtreeWrite_eq_foldl he]
        rfl
      · -- the steps of the first child leave the others as they are
        have hapart : Apart [k] [e.1] := apart_of_length_eq rfl (by simpa using hke)
        rw [if_neg (fun h => hke (hkey.mp h)),
          getChild_foldl_of_apart hvalid hn hmem (by simpa using Ne.symm hk) hapart]

/-- What the writes make of a child of a node. -/
theorem getChild_applyToNode_branch
    {children : List (ChildKey × FImmutableTree ChildKey (FNode α))}
    (ht : WriteTree cmp (.node none children)) {k : ChildKey} (hk : k ≠ priorityKey)
    {n : FNode α} (hn : n.WellFormed) :
    ((FCompoundWrite.mk (.node none children)).applyToNode n).getChild [k] =
      (FCompoundWrite.mk ((SortedDict.get cmp k children).getD .empty)).applyToNode
        (n.getChild [k]) := by
  cases ht with
  | branch hs hne hprio hall =>
    have ht := WriteTree.branch hs hne hprio hall
    rw [← getChild_foldl_childSteps hs hall hk hn, applyToNode, applySubtreeWrite_eq_foldl ht,
      steps, List.foldl_append]
    cases priorityWrite children with
    | none => rfl
    | some c =>
      -- the priority of the node is not seen by the child
      have hwf : ((childSteps children []).foldl WriteStep.perform n).WellFormed := by
        have hroot : priorityKey ∉ ([] : List ChildKey) := by simp
        refine wellFormed_foldl (fun s hs => valid_of_mem_steps ht hroot ?_) hn
        rw [steps]
        exact List.mem_append_left _ hs
      generalize (childSteps children []).foldl WriteStep.perform n = m at hwf
      change ((if (m.getChild []).isEmpty then m else m.updateChild [priorityKey] c).getChild [k]) =
        m.getChild [k]
      split
      · rfl
      · rw [FNode.updateChild_priorityKey, FNode.getChild_cons hk, FNode.getChild_cons hk,
          FNode.getImmediateChild_updatePriority hwf hk]

/-- What the writes make of the node at a path is made by the writes below the path. -/
theorem getChild_applyToNode {w : FCompoundWrite α} (hw : WriteTree cmp w.writeTree)
    {n : FNode α} (hn : n.WellFormed) {p : List ChildKey} (hp : priorityKey ∉ p) :
    (w.applyToNode n).getChild p =
      (w.childCompoundWriteAtPath cmp p).applyToNode (n.getChild p) := by
  obtain ⟨t⟩ := w
  induction p generalizing t n with
  | nil => rw [childCompoundWriteAtPath_nil, FNode.getChild_nil, FNode.getChild_nil]
  | cons k p ih =>
    rw [List.mem_cons, not_or] at hp
    have hk : k ≠ priorityKey := Ne.symm hp.1
    have hmem : priorityKey ∉ [k] := by simpa using hp.1
    cases hw with
    | write =>
      rw [applyToNode_write, childCompoundWriteAtPath_write, applyToNode_write]
    | branch hs hne hprio hall =>
      have hw := WriteTree.branch hs hne hprio hall
      rw [← List.singleton_append, FNode.getChild_append hmem, getChild_applyToNode_branch hw hk hn,
        FNode.getChild_append hmem, List.singleton_append, childCompoundWriteAtPath_branch hw]
      exact ih (hn.getChild [k]) hp.2 _ (hw.get_getD k)

end Apply

end FCompoundWrite

end LearnCode.FirebaseDatabase
