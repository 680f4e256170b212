import LearnCode.FirebaseDatabase.FCompoundWrite

/-!
# What compound writes do

A compound write is applied to a node as the updates it was made of would be, one after the other,
except that a leaf of the node above a path that is written may stay where an update would have
taken it away.

## Main definitions

* `writeOps w`: the writes as operations on the store of leaves;
* `effect e`: what one write does to the store of leaves;
* `addAll`, `updateAll`: the writes with further ones, and a node after updates.

## Main results

* `leaves_applyToNode`: the leaves after the writes are applied;
* `leaves_applyToNode_addWrite`: the writes with another one are applied as the writes and then the
  other one;
* `leaves_applyToNode_addAll`: a compound write made by a run of updates is applied as the run;
* `completeNodeAtPath_isSome_iff`: the writes are complete at a path when what they make of a node
  there does not depend on the node.
-/

namespace LearnCode.FirebaseDatabase.FCompoundWrite

open ChildKey PathStore

variable {α : Type} {cmp : ChildKey → ChildKey → Ordering}

/-- What a write does to the store of leaves: one of a priority does nothing. -/
def effect (e : List ChildKey × FNode α) : List (Op ChildKey α) :=
  if priorityKey ∈ e.1 then [] else [FNode.updateOp e.1 e.2]

/-- The writes as operations on the store of leaves. -/
def writeOps (w : FCompoundWrite α) : List (Op ChildKey α) := w.writeTree.forEach.flatMap effect

/-! ## Leaves -/

/-- The steps in applying a write tree are its writes. -/
theorem filterMap_op_steps {t : FImmutableTree ChildKey (FNode α)} (ht : WriteTree cmp t)
    {path : List ChildKey} (hpath : priorityKey ∉ path) :
    (steps t path).filterMap WriteStep.op =
      (FImmutableTree.forEachPathSoFar path t).flatMap effect := by
  induction ht generalizing path with
  | write => simp [steps, FImmutableTree.forEachPathSoFar_node, WriteStep.op, effect, hpath]
  | @branch children hs hne hprio hall ih =>
    rw [steps, childSteps_eq_flatMap, List.filterMap_append, List.filterMap_flatMap,
      FImmutableTree.forEachPathSoFar_node, Option.map_none, Option.toList_none, List.append_nil,
      List.flatMap_assoc]
    have hpriority : ((priorityWrite children).map (WriteStep.priority path)).toList.filterMap
        WriteStep.op = [] := by
      cases priorityWrite children <;> rfl
    rw [hpriority, List.append_nil]
    refine List.flatMap_congr fun e he => ?_
    split
    · -- a write to the priority has no effect on the leaves
      rename_i hkey
      obtain ⟨node, hnode, -⟩ := hprio e he hkey
      simp [hnode, FImmutableTree.forEachPathSoFar_node, effect, hkey]
    · rename_i hkey
      exact ih e he (FNode.priorityKey_notMem_append_iff.mpr
        ⟨hpath, by simpa using Ne.symm hkey⟩)

/-- The leaves after the writes are applied. -/
theorem leaves_applyToNode {w : FCompoundWrite α} (hw : WriteTree cmp w.writeTree) {n : FNode α}
    (hn : n.WellFormed) : (w.applyToNode n).leaves = applyAll w.writeOps n.leaves := by
  rw [applyToNode, applySubtreeWrite_eq_foldl hw,
    leaves_foldl (fun s hs => valid_of_mem_steps hw (by simp) hs) hn,
    filterMap_op_steps hw (by simp)]
  rfl

/-- What may be put at a path with a priority is the priority of a node. -/
theorem exists_eq_append_of_writable {c : FNode α} {p : List ChildKey} (hc : c.Writable p)
    (hp : priorityKey ∈ p) : ∃ r, p = r ++ [priorityKey] ∧ priorityKey ∉ r ∧ c.IsPriority := by
  induction p with
  | nil => cases hp
  | cons k p ih =>
    rw [FNode.Writable] at hc
    split at hc
    · rename_i hk
      obtain ⟨rfl, hc⟩ := hc
      exact ⟨[], by rw [hk]; rfl, by simp, hc⟩
    · rename_i hk
      obtain ⟨r, rfl, hr, hcr⟩ := ih hc ((List.mem_cons.mp hp).resolve_left (Ne.symm hk))
      exact ⟨k :: r, rfl, by simpa [hr] using Ne.symm hk, hcr⟩

/-- What an update does to the leaves, also that of a priority. -/
theorem leaves_updateChild_of_writable {n c : FNode α} (hn : n.WellFormed) {p : List ChildKey}
    (hc : c.Writable p) : (n.updateChild p c).leaves = applyAll (effect (p, c)) n.leaves := by
  by_cases hp : priorityKey ∈ p
  · obtain ⟨r, rfl, hr, hcr⟩ := exists_eq_append_of_writable hc hp
    rw [FNode.leaves_updateChild_priorityKey hn hcr hr, effect, if_pos hp]
    rfl
  · rw [FNode.leaves_updateChild hn hc.wellFormed hp, effect, if_neg hp]
    rfl

/-- What an update does to the leaf at a path depends on the leaf there only. -/
theorem leaves_updateChild_congr {n m c : FNode α} (hn : n.WellFormed) (hm : m.WellFormed)
    {p q : List ChildKey} (hc : c.Writable p) (h : n.leaves q = m.leaves q) :
    (n.updateChild p c).leaves q = (m.updateChild p c).leaves q := by
  rw [leaves_updateChild_of_writable hn hc, leaves_updateChild_of_writable hm hc, effect]
  split
  · exact h
  · simp only [FNode.updateOp]
    split <;> simp [applyAll, Op.apply, h]

section

variable {t : FImmutableTree ChildKey (FNode α)}

/-- Some node that is not empty is written, other than a priority. -/
def WritesNode (cmp : ChildKey → ChildKey → Ordering) (t : FImmutableTree ChildKey (FNode α)) :
    Prop :=
  ∃ q v, t.valueAtPath cmp q = some v ∧ priorityKey ∉ q ∧ v.isEmpty = false

variable [Std.TransCmp cmp] [Std.LawfulEqCmp cmp]

/-- The operations of the writes are those of the nodes that are written. -/
theorem mem_writeOps_iff {w : FCompoundWrite α} (hw : w.writeTree.Pruned cmp)
    (op : Op ChildKey α) :
    op ∈ w.writeOps ↔ ∃ q v, w.writeTree.valueAtPath cmp q = some v ∧ priorityKey ∉ q ∧
      op = FNode.updateOp q v := by
  rw [writeOps, List.mem_flatMap]
  constructor
  · rintro ⟨⟨q, v⟩, hqv, hop⟩
    rw [effect] at hop
    split at hop
    · cases hop
    · rename_i hq
      exact ⟨q, v, (FImmutableTree.mem_forEach_iff hw).mp hqv, hq, List.mem_singleton.mp hop⟩
  · rintro ⟨q, v, hqv, hq, rfl⟩
    exact ⟨(q, v), (FImmutableTree.mem_forEach_iff hw).mpr hqv, by simp [effect, hq]⟩

open Classical in
/-- The value of a leaf stays until a node is written below it. -/
theorem leaves_nil_applyToNode_branch
    {children : List (ChildKey × FImmutableTree ChildKey (FNode α))}
    (ht : WriteTree cmp (.node none children)) {n : FNode α} (hn : n.WellFormed) :
    ((FCompoundWrite.mk (.node none children)).applyToNode n).leaves [] =
      if WritesNode cmp (.node none children) then none else n.leaves [] := by
  have hmem := mem_writeOps_iff (w := ⟨.node none children⟩) ht.pruned
  rw [leaves_applyToNode ht hn, applyAll_apply_of_forall_not_prefix]
  · refine if_congr ?_ rfl rfl
    constructor
    · rintro ⟨p, c, hop, -⟩
      obtain ⟨q, v, hqv, hq, heq⟩ := (hmem _).mp hop
      refine ⟨q, v, hqv, hq, ?_⟩
      rw [FNode.updateOp] at heq
      cases hempty : v.isEmpty with
      | true => rw [hempty, if_pos rfl] at heq; cases heq
      | false => rfl
    · rintro ⟨q, v, hqv, hq, hempty⟩
      refine ⟨q, v.leaves, (hmem _).mpr ⟨q, v, hqv, hq, ?_⟩, List.nil_prefix⟩
      rw [FNode.updateOp, if_neg (by simp [hempty])]
  · -- no write of a branch is at the node itself
    intro op hop hpre
    obtain ⟨q, v, hqv, -, rfl⟩ := (hmem _).mp hop
    have hpath : (FNode.updateOp q v).path = q := by
      rw [FNode.updateOp]
      split <;> rfl
    rw [hpath] at hpre
    rw [List.prefix_nil.mp hpre, FImmutableTree.valueAtPath_nil] at hqv
    cases hqv

/-- The values of a write tree after another write. -/
theorem valueAtPath_addWrite (ht : WriteTree cmp t) {p : List ChildKey} (c : FNode α)
    (q : List ChildKey) :
    ((FCompoundWrite.mk t).addWrite cmp c p).writeTree.valueAtPath cmp q =
      match t.findRootMostValueAndPath cmp p with
      | some rootMost =>
        -- a write above takes the new one in
        if q = rootMost.path then
          some (rootMost.value.updateChild
            (FPath.relativePath rootMost.path p rootMost.isPrefix) c)
        else t.valueAtPath cmp q
      | none =>
        if q = p then some c else if p <+: q then none else t.valueAtPath cmp q := by
  cases hfind : t.findRootMostValueAndPath cmp p with
  | some rootMost =>
    rw [addWrite_of_eq_some ht hfind, FImmutableTree.valueAtPath_setValue]
  | none =>
    rw [addWrite_of_eq_none hfind, FImmutableTree.valueAtPath_setTree]
    simp only
    -- the writes below the path give way to the new one
    by_cases hpq : p <+: q
    · obtain ⟨r, rfl⟩ := hpq
      rw [if_pos (List.prefix_append p r), List.drop_left]
      cases r with
      | nil => rw [List.append_nil, if_pos rfl]; rfl
      | cons k r =>
        rw [if_neg (by simp), if_pos (List.prefix_append p _), FImmutableTree.valueAtPath_cons]
        rfl
    · rw [if_neg hpq, if_neg (fun h => hpq (by rw [h])), if_neg hpq]

omit [Std.TransCmp cmp] in
/-- What is written may be put at its path. -/
theorem writable_of_valueAtPath (ht : WriteTree cmp t) {q : List ChildKey} {v : FNode α}
    (h : t.valueAtPath cmp q = some v) : v.Writable q := by
  induction q generalizing t with
  | nil =>
    rw [FImmutableTree.valueAtPath_nil] at h
    cases ht with
    | write hv => exact Option.some.inj h ▸ hv
    | branch => cases h
  | cons k q ih =>
    cases ht with
    | write => cases h
    | branch hs hne hprio hall =>
      rw [FImmutableTree.valueAtPath_cons, FImmutableTree.children_node] at h
      obtain ⟨child, hget, hchild⟩ := Option.bind_eq_some_iff.mp h
      obtain ⟨e, he, heq, rfl⟩ := SortedDict.exists_mem_of_get_eq_some hget
      rw [FNode.Writable]
      split
      · -- below the priority there is one write only
        rename_i hk
        obtain ⟨node, hnode, hpriority⟩ :=
          hprio e he ((Std.LawfulEqCmp.eq_of_compare heq).symm.trans hk)
        rw [hnode] at hchild
        cases q with
        | nil => exact ⟨rfl, Option.some.inj hchild ▸ hpriority⟩
        | cons j q => cases hchild
      · exact ih (hall e he) hchild

/-- With another write of a priority the nodes that are written are the same. -/
theorem writesNode_addWrite_iff (ht : WriteTree cmp t) {p : List ChildKey} {c : FNode α}
    (hc : c.Writable p) (hp : priorityKey ∈ p) :
    WritesNode cmp ((FCompoundWrite.mk t).addWrite cmp c p).writeTree ↔ WritesNode cmp t := by
  obtain ⟨r, rfl, hr, hcr⟩ := exists_eq_append_of_writable hc hp
  refine exists_congr fun q => ?_
  by_cases hq : priorityKey ∈ q
  · simp [hq]
  rw [valueAtPath_addWrite ht]
  cases hfind : t.findRootMostValueAndPath cmp (r ++ [priorityKey]) with
  | none =>
    have hpq : ¬r ++ [priorityKey] <+: q := fun h => hq (h.subset hp)
    have hne : q ≠ r ++ [priorityKey] := fun h => hq (h ▸ hp)
    simp only [hne, hpq, if_false]
  | some rootMost =>
    obtain ⟨path, value, hpre⟩ := rootMost
    have hvalue := (FImmutableTree.of_findRootMostMatchingPath_eq_some _ hfind).1
    simp only at hvalue ⊢
    split
    · -- the priority is written below the node that is found
      rename_i hqpath
      subst hqpath
      obtain ⟨s, rfl⟩ : q <+: r :=
        (List.prefix_concat_iff.mp hpre).resolve_left fun h => hq (h ▸ hp)
      have hs := (FNode.priorityKey_notMem_append_iff.mp hr).2
      have hempty := FNode.isEmpty_updateChild_priorityKey
        (writable_of_valueAtPath ht hvalue).wellFormed hcr hs
      simp [hvalue, FPath.relativePath, List.append_assoc, hempty]
    · rfl

/-- The writes with another one are applied as the writes and then the other one, except that a
leaf of the node above the path of the other one may stay. -/
theorem leaves_applyToNode_addWrite (ht : WriteTree cmp t) {n : FNode α} (hn : n.WellFormed)
    {p : List ChildKey} {c : FNode α} (hc : c.Writable p) {q : List ChildKey}
    (hq : priorityKey ∉ p → q <+: p → q ≠ p → n.leaves q = none) :
    (((FCompoundWrite.mk t).addWrite cmp c p).applyToNode n).leaves q =
      (((FCompoundWrite.mk t).applyToNode n).updateChild p c).leaves q := by
  classical
  by_cases hprio : priorityKey ∈ q
  · simp [FNode.leaves, hprio]
  -- along the path of the other write, with the leaf that is read in the child on the path
  induction p generalizing t n q with
  | nil =>
    rw [FNode.updateChild]
    exact congrFun (congrArg FNode.leaves (applyToNode_write c n)) q
  | cons k p ih =>
    have hnew := ht.addWrite hc
    have hm := wellFormed_applyToNode (w := ⟨t⟩) ht hn
    cases ht with
    | write => rw [addWrite_write, applyToNode_write, applyToNode_write]
    | @branch children hs hne hkeys hall =>
      have ht := WriteTree.branch hs hne hkeys hall
      cases q with
      | nil =>
        -- the leaf of the node itself goes when a node is written anywhere below it
        have hiff := writesNode_addWrite_iff ht hc
        rw [leaves_updateChild_of_writable hm hc, effect]
        rw [addWrite_branch ht] at hnew hiff ⊢
        rw [leaves_nil_applyToNode_branch hnew hn]
        by_cases hp : priorityKey ∈ k :: p
        · rw [if_pos hp]
          exact (if_congr (hiff hp) rfl rfl).trans (leaves_nil_applyToNode_branch ht hn).symm
        · have hnone := hq hp List.nil_prefix (by simp)
          have hmnone : ((FCompoundWrite.mk (.node none children)).applyToNode n).leaves [] =
              none := by
            rw [leaves_nil_applyToNode_branch ht hn, hnone, ite_self]
          rw [hnone, ite_self, if_neg hp, FNode.updateOp]
          split <;> simp [applyAll, Op.apply, hmnone]
      | cons j q =>
        rw [List.mem_cons, not_or] at hprio
        have hj : j ≠ priorityKey := Ne.symm hprio.1
        have hmem : priorityKey ∉ [j] := by simpa using hprio.1
        have hleaves : ∀ m : FNode α, m.leaves (j :: q) = (m.getChild [j]).leaves q :=
          FNode.leaves_append hmem q
        rw [hleaves, hleaves]
        by_cases hjk : j = k
        · subst hjk
          have hc' : c.Writable p := (FNode.writable_append_iff (p := [j]) hmem).mp hc
          have hupdate := FNode.getChild_updateChild_append hm hmem hc'
          rw [List.singleton_append] at hupdate
          rw [hupdate, getChild_applyToNode_branch ht hj hn]
          rw [addWrite_branch ht] at hnew ⊢
          rw [getChild_applyToNode_branch hnew hj hn, SortedDict.get_insert_of_lawful, if_pos rfl]
          refine ih (ht.get_getD j) (hn.getChild [j]) hc' (fun hp hqp hqne => ?_) hprio.2
          rw [← hleaves]
          exact hq (by simpa using ⟨Ne.symm hj, hp⟩) (by simpa [List.cons_prefix_cons] using hqp)
            (by simpa using hqne)
        · -- a child apart from the path has the writes it had
          have hapart : Apart (k :: p) [j] :=
            ⟨fun h => hjk (List.cons_prefix_cons.mp h).1.symm,
              fun h => hjk (List.cons_prefix_cons.mp h).1⟩
          rw [FNode.getChild_updateChild_of_apart hm hc hmem hapart,
            getChild_applyToNode_branch ht hj hn]
          rw [addWrite_branch ht] at hnew ⊢
          rw [getChild_applyToNode_branch hnew hj hn, SortedDict.get_insert_of_lawful, if_neg hjk]

end

/-! ## Runs of updates -/

/-- The writes with further ones, each at its path. -/
def addAll (cmp : ChildKey → ChildKey → Ordering) (us : List (List ChildKey × FNode α))
    (w : FCompoundWrite α) : FCompoundWrite α :=
  us.foldl (fun w u => w.addWrite cmp u.2 u.1) w

/-- A node after updates, each at its path. -/
def updateAll (us : List (List ChildKey × FNode α)) (n : FNode α) : FNode α :=
  us.foldl (fun n u => n.updateChild u.1 u.2) n

/-- What is written may be put at its path. -/
def AllWritable (us : List (List ChildKey × FNode α)) : Prop := ∀ u ∈ us, u.2.Writable u.1

theorem allWritable_cons {u : List ChildKey × FNode α} {us : List (List ChildKey × FNode α)} :
    AllWritable (u :: us) ↔ u.2.Writable u.1 ∧ AllWritable us :=
  List.forall_mem_cons

theorem allWritable_append {us vs : List (List ChildKey × FNode α)} :
    AllWritable (us ++ vs) ↔ AllWritable us ∧ AllWritable vs :=
  List.forall_mem_append

theorem addAll_cons (u : List ChildKey × FNode α) (us : List (List ChildKey × FNode α))
    (w : FCompoundWrite α) :
    addAll cmp (u :: us) w = addAll cmp us (w.addWrite cmp u.2 u.1) := rfl

theorem addAll_append (us vs : List (List ChildKey × FNode α)) (w : FCompoundWrite α) :
    addAll cmp (us ++ vs) w = addAll cmp vs (addAll cmp us w) := List.foldl_append

/-- A compound write is added write by write. -/
theorem addCompoundWrite_eq (w merge : FCompoundWrite α) (path : List ChildKey) :
    w.addCompoundWrite cmp merge path =
      addAll cmp (merge.writeTree.forEach.map fun e => (path ++ e.1, e.2)) w := by
  rw [addCompoundWrite, addAll, List.foldl_map]

section Runs

variable {us : List (List ChildKey × FNode α)}

theorem wellFormed_updateAll (hus : AllWritable us) {n : FNode α} (hn : n.WellFormed) :
    (updateAll us n).WellFormed := by
  induction us generalizing n with
  | nil => exact hn
  | cons u us ih =>
    obtain ⟨hu, hus⟩ := allWritable_cons.mp hus
    exact ih hus (hn.updateChild hu)

theorem WriteTree.addAll [Std.TransCmp cmp] (hus : AllWritable us) {w : FCompoundWrite α}
    (hw : WriteTree cmp w.writeTree) : WriteTree cmp (addAll cmp us w).writeTree := by
  induction us generalizing w with
  | nil => exact hw
  | cons u us ih =>
    obtain ⟨hu, hus⟩ := allWritable_cons.mp hus
    exact ih hus (hw.addWrite hu)

variable [Std.TransCmp cmp] [Std.LawfulEqCmp cmp]

/-- A compound write made by a run of updates is applied as the run, except that a leaf of the node
above the path of an update may stay. -/
theorem leaves_applyToNode_addAll {w : FCompoundWrite α} (hw : WriteTree cmp w.writeTree)
    {n : FNode α} (hn : n.WellFormed) (hus : AllWritable us) {q : List ChildKey}
    (hq : ∀ u ∈ us, priorityKey ∉ u.1 → q <+: u.1 → q ≠ u.1 → n.leaves q = none) :
    ((addAll cmp us w).applyToNode n).leaves q = (updateAll us (w.applyToNode n)).leaves q := by
  induction us using List.reverseRecOn with
  | nil => rfl
  | append_singleton us u ih =>
    obtain ⟨hus, hu⟩ := allWritable_append.mp hus
    have hwritable := hu u (List.mem_singleton_self u)
    have htree := WriteTree.addAll hus hw
    have hleft := wellFormed_applyToNode htree hn
    have hright := wellFormed_updateAll hus (wellFormed_applyToNode hw hn)
    have hprev := ih hus fun u' hu' => hq u' (List.mem_append_left _ hu')
    have hlast := hq u (List.mem_append_right _ (List.mem_singleton_self u))
    rw [addAll_append, updateAll, List.foldl_append]
    exact (leaves_applyToNode_addWrite htree hn hwritable hlast).trans
      (leaves_updateChild_congr hleft hright hwritable hprev)

omit [Std.TransCmp cmp] in
/-- Where the writes are complete, what they make of a node is the complete node. -/
theorem getChild_applyToNode_of_completeNodeAtPath {w : FCompoundWrite α}
    (hw : WriteTree cmp w.writeTree) {n : FNode α} (hn : n.WellFormed) {p : List ChildKey}
    (hp : priorityKey ∉ p) {v : FNode α} (h : w.completeNodeAtPath cmp p = some v) :
    (w.applyToNode n).getChild p = v := by
  rw [getChild_applyToNode hw hn hp, childCompoundWriteAtPath_of_completeNodeAtPath hw h,
    applyToNode_write]

omit [Std.TransCmp cmp] in
/-- Where the writes are not complete they leave a child as it was. -/
theorem exists_getChild_applyToNode_of_eq_none {w : FCompoundWrite α}
    (hw : WriteTree cmp w.writeTree) {p : List ChildKey} (hp : priorityKey ∉ p)
    (h : w.completeNodeAtPath cmp p = none) :
    ∃ k ≠ priorityKey, ∀ n : FNode α, n.WellFormed →
      ((w.applyToNode n).getChild p).getChild [k] = (n.getChild p).getChild [k] := by
  obtain ⟨children, hchild⟩ := childCompoundWriteAtPath_of_eq_none hw h
  have hbranch := hw.childCompoundWriteAtPath p
  rw [hchild] at hbranch
  -- a node has finitely many writes below it, and there are infinitely many keys
  obtain ⟨k, hk⟩ := Infinite.exists_notMem_finset (priorityKey :: children.map Prod.fst).toFinset
  obtain ⟨hk, hfresh⟩ := List.ne_and_not_mem_of_not_mem_cons (mt List.mem_toFinset.mpr hk)
  have hget : SortedDict.get cmp k children = none := by
    rw [SortedDict.get_eq_none_iff]
    exact fun e he heq => hfresh (List.mem_map.mpr
      ⟨e, he, (Std.LawfulEqCmp.eq_of_compare heq).symm⟩)
  refine ⟨k, hk, fun n hn => ?_⟩
  rw [getChild_applyToNode hw hn hp, hchild,
    getChild_applyToNode_branch hbranch hk (hn.getChild p), hget]
  rfl

omit [Std.TransCmp cmp] in
/-- The writes are complete at a path exactly when what they make of a node there does not depend
on the node. -/
theorem hasCompleteWriteAtPath_iff [Nonempty α] {w : FCompoundWrite α}
    (hw : WriteTree cmp w.writeTree) {p : List ChildKey} (hp : priorityKey ∉ p) :
    w.hasCompleteWriteAtPath cmp p = true ↔
      ∀ n n' : FNode α, n.WellFormed → n'.WellFormed →
        (w.applyToNode n).getChild p = (w.applyToNode n').getChild p := by
  rw [hasCompleteWriteAtPath, Option.isSome_iff_exists]
  constructor
  · rintro ⟨v, hv⟩ n n' hn hn'
    rw [getChild_applyToNode_of_completeNodeAtPath hw hn hp hv,
      getChild_applyToNode_of_completeNodeAtPath hw hn' hp hv]
  · intro h
    cases hcomplete : w.completeNodeAtPath cmp p with
    | some v => exact ⟨v, rfl⟩
    | none =>
      -- the empty node and one with a leaf at the child that is left differ there
      obtain ⟨k, hk, hread⟩ := exists_getChild_applyToNode_of_eq_none hw hp hcomplete
      have hmem : priorityKey ∉ [k] := by simpa using Ne.symm hk
      obtain ⟨a⟩ := ‹Nonempty α›
      have hleaf : (FNode.leaf a .empty).Writable [k] :=
        FNode.writable_of_notMem (.leaf a .empty) hmem
      have hwritable : (FNode.leaf a .empty).Writable (p ++ [k]) :=
        (FNode.writable_append_iff hp).mpr hleaf
      have hupdated := FNode.WellFormed.empty.updateChild hwritable
      have heq := congrArg (FNode.getChild [k]) (h _ _ hupdated .empty)
      rw [hread _ hupdated, hread _ .empty,
        FNode.getChild_updateChild_append .empty hp hleaf, FNode.getChild_empty,
        FNode.getChild_empty] at heq
      have hchildLeaf := FNode.getChild_updateChild_append (n := .empty) (c := .leaf a .empty)
        .empty hmem (q := []) (.leaf a .empty)
      rw [List.append_nil] at hchildLeaf
      rw [hchildLeaf] at heq
      cases heq

/-- A write is complete at its path, where nothing of the node is left, and not above it. -/
theorem hasCompleteWriteAtPath_iff_written :
    let w : FCompoundWrite ℕ := emptyWrite.addWrite keyComparator (.leaf 7 .empty)
      [⟨"a", by decide⟩, ⟨"b", by decide⟩]
    (∀ n n' : FNode ℕ, n.WellFormed → n'.WellFormed →
      (w.applyToNode n).getChild [⟨"a", by decide⟩, ⟨"b", by decide⟩] =
        (w.applyToNode n').getChild [⟨"a", by decide⟩, ⟨"b", by decide⟩]) ∧
    ¬∀ n n' : FNode ℕ, n.WellFormed → n'.WellFormed →
      (w.applyToNode n).getChild [⟨"a", by decide⟩] =
        (w.applyToNode n').getChild [⟨"a", by decide⟩] := by
  intro w
  have hw : WriteTree keyComparator w.writeTree :=
    writeTree_emptyWrite.addWrite (FNode.writable_of_notMem (.leaf 7 .empty) (by decide))
  refine ⟨(hasCompleteWriteAtPath_iff hw (by decide)).mp (by decide), fun h => ?_⟩
  have hcomplete := (hasCompleteWriteAtPath_iff hw (p := [⟨"a", by decide⟩]) (by decide)).mpr h
  exact absurd hcomplete (by decide)

end Runs

end LearnCode.FirebaseDatabase.FCompoundWrite
