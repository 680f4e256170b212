import LearnCode.FirebaseDatabase.FNode

/-!
# The leaves of a snapshot node

A snapshot node stands for a store of leaves, in which an update is a write or a removal. Its
priorities are a second store: a priority stays where it is as long as its node is not emptied.

## Main definitions

* `leaves`, `priorities`: the values of the leaves, and those of the priorities, by their paths;
* `updateOp`: what an update is in the store of leaves.

## Main results

* `leaves_updateChild`, `priorities_updateChild`: the leaves and the priorities after an update;
* `leaves_updateChild_priorityKey`, `priorities_updateChild_priorityKey`: those after an update of
  a priority;
* `WellFormed.eq_of_leaves_eq`: a node is determined by its leaves and its priorities.
-/

namespace LearnCode.FirebaseDatabase.FNode

open ChildKey PathStore

variable {α : Type}

/-- The values of the leaves of a node, by their paths. -/
def leaves (n : FNode α) : Store ChildKey α :=
  fun q => if priorityKey ∈ q then none else (n.getChild q).leafValue

/-- The values of the priorities in a node, by the paths of the nodes they belong to. -/
def priorities (n : FNode α) : Store ChildKey α :=
  fun q => if priorityKey ∈ q then none else (n.getChild q).getPriority.leafValue

/-- What an update of a node is in the store of its leaves. -/
def updateOp (path : List ChildKey) (newChild : FNode α) : Op ChildKey α :=
  if newChild.isEmpty then .remove path else .write path newChild.leaves

/-- The path of a component and others holds no priority. -/
theorem priorityKey_notMem_append_iff {p q : List ChildKey} :
    priorityKey ∉ p ++ q ↔ priorityKey ∉ p ∧ priorityKey ∉ q := by
  rw [List.mem_append, not_or]

/-- The leaves below a node are those of the node at the path. -/
theorem leaves_append {p : List ChildKey} (hp : priorityKey ∉ p) (q : List ChildKey) (n : FNode α) :
    n.leaves (p ++ q) = (n.getChild p).leaves q := by
  simp only [leaves, List.mem_append, hp, false_or, getChild_append hp]

theorem priorities_append {p : List ChildKey} (hp : priorityKey ∉ p) (q : List ChildKey)
    (n : FNode α) : n.priorities (p ++ q) = (n.getChild p).priorities q := by
  simp only [priorities, List.mem_append, hp, false_or, getChild_append hp]

@[simp] theorem leaves_empty (q : List ChildKey) : (empty : FNode α).leaves q = none := by
  simp [leaves, leafValue]

@[simp] theorem priorities_empty (q : List ChildKey) : (empty : FNode α).priorities q = none := by
  simp [priorities, getPriority, leafValue]

theorem leaves_nil (n : FNode α) : n.leaves [] = n.leafValue := by simp [leaves]

theorem priorities_nil (n : FNode α) : n.priorities [] = n.getPriority.leafValue := by
  simp [priorities]

/-! ## Updates -/

section Update

variable {n c : FNode α} {p : List ChildKey}

/-- A node with another one below it is empty only when that one is empty. -/
theorem updateChild_ne_empty (hn : n.WellFormed) (hc : c.WellFormed) (hp : priorityKey ∉ p)
    (hne : c ≠ empty) : n.updateChild p c ≠ empty := by
  intro h
  have happend := getChild_updateChild_append hn hp (q := []) hc
  rw [List.append_nil, h, getChild_empty] at happend
  cases hq : n.getChild p <;> rw [hq] at happend <;> exact hne happend.symm

/-- The value of a leaf above the path of an update. -/
theorem leafValue_updateChild (hn : n.WellFormed) (hc : c.WellFormed) (hp : priorityKey ∉ p)
    (hnil : p ≠ []) :
    (n.updateChild p c).leafValue = if c.isEmpty then n.leafValue else none := by
  cases p with
  | nil => exact absurd rfl hnil
  | cons front rest =>
    rw [List.mem_cons, not_or] at hp
    have hfront : front ≠ priorityKey := Ne.symm hp.1
    have hchild := hn.getImmediateChild front
    have hd := hchild.updateChild (writable_of_notMem hc hp.2)
    rw [updateChild_cons hn hc hfront, leafValue_updateImmediateChild hn hfront]
    cases hempty : c.isEmpty with
    | true =>
      rw [hc.isEmpty_iff.mp hempty, if_pos rfl]
      cases hn with
      | empty => exact ite_self none
      | leaf v hq => simp [getImmediateChild, hfront, isEmpty]
      | children => exact ite_self none
    | false =>
      have hne : c ≠ empty := by rintro rfl; cases hempty
      rw [hd.isEmpty_eq_false (updateChild_ne_empty hchild hc hp.2 hne)]

/-- An update is a write or a removal in the store of leaves. -/
theorem leaves_updateChild (hn : n.WellFormed) (hc : c.WellFormed) (hp : priorityKey ∉ p) :
    (n.updateChild p c).leaves = (updateOp p c).apply n.leaves := by
  have hwritable := writable_of_notMem hc hp
  funext q
  by_cases hpq : p <+: q
  · -- at the path and below it are the leaves of the new node
    obtain ⟨t, rfl⟩ := hpq
    have happend := getChild_updateChild_append hn hp (q := []) hc
    rw [List.append_nil] at happend
    rw [leaves_append hp, happend, updateChild, updateOp]
    split
    · rename_i hempty
      rw [hc.isEmpty_iff.mp hempty, leaves_empty]
      simp [Op.apply]
    · simp [Op.apply]
  by_cases hqp : q <+: p
  · -- above the path a leaf goes unless the new node is empty
    obtain ⟨s, rfl⟩ := hqp
    obtain ⟨hq, hs⟩ := priorityKey_notMem_append_iff.mp hp
    have hnil : s ≠ [] := by rintro rfl; exact hpq (by simp)
    have hchild : ∀ m : FNode α, m.leaves q = (m.getChild q).leafValue := by
      intro m
      simp [leaves, hq]
    rw [hchild, getChild_updateChild_append hn hq (writable_of_notMem hc hs),
      leafValue_updateChild (hn.getChild q) hc hs hnil, updateOp]
    split
    · simp [Op.apply, hpq, hchild]
    · simp [Op.apply, hpq]
  · -- apart from the path nothing changes
    have hright : (updateOp p c).apply n.leaves q = n.leaves q := by
      unfold updateOp
      split <;> simp [Op.apply, hpq, hqp]
    rw [hright]
    simp only [leaves]
    split
    · rfl
    · rename_i hq
      rw [getChild_updateChild_of_apart hn hwritable hq ⟨hpq, hqp⟩]

/-- The priority of a node above the path of an update. -/
theorem getPriority_updateChild (hn : n.WellFormed) (hc : c.WellFormed) (hp : priorityKey ∉ p)
    (hnil : p ≠ []) :
    (n.updateChild p c).getPriority =
      if (n.updateChild p c).isEmpty then empty else n.getPriority := by
  cases p with
  | nil => exact absurd rfl hnil
  | cons front rest =>
    rw [List.mem_cons, not_or] at hp
    have hfront : front ≠ priorityKey := Ne.symm hp.1
    have hd := (hn.getImmediateChild front).updateChild (writable_of_notMem hc hp.2)
    rw [updateChild_cons hn hc hfront, getPriority_updateImmediateChild hn hd hfront]

/-- An update puts the priorities of the new node in its place, and keeps all others except those
of the nodes that it empties. -/
theorem priorities_updateChild (hn : n.WellFormed) (hc : c.WellFormed) (hp : priorityKey ∉ p)
    (q : List ChildKey) :
    (n.updateChild p c).priorities q =
      if p <+: q then c.priorities (q.drop p.length)
      else if ((n.updateChild p c).getChild q).isEmpty then none
      else n.priorities q := by
  split
  · -- at the path and below it are the priorities of the new node
    rename_i hpq
    obtain ⟨t, rfl⟩ := hpq
    have happend := getChild_updateChild_append hn hp (q := []) hc
    rw [List.append_nil] at happend
    rw [priorities_append hp, happend, updateChild]
    simp
  · rename_i hpq
    simp only [priorities]
    by_cases hq : priorityKey ∈ q
    · simp [hq]
    rw [if_neg hq, if_neg hq]
    -- above the path a node keeps its priority unless the update empties it
    by_cases hqp : q <+: p
    · obtain ⟨s, rfl⟩ := hqp
      obtain ⟨-, hs⟩ := priorityKey_notMem_append_iff.mp hp
      have hnil : s ≠ [] := by rintro rfl; exact hpq (by simp)
      rw [getChild_updateChild_append hn hq (writable_of_notMem hc hs),
        getPriority_updateChild (hn.getChild q) hc hs hnil]
      split <;> rfl
    · rw [getChild_updateChild_of_apart hn (writable_of_notMem hc hp) hq ⟨hpq, hqp⟩]
      split
      · rename_i hempty
        rw [(hn.getChild q).isEmpty_iff.mp hempty]
        rfl
      · rfl

/-- An update keeps a node well formed, is a write or a removal in the store of its leaves, puts
the priorities of the new node in its place, and keeps all others except those of the nodes that it
empties. -/
theorem updateChild_refines (hn : n.WellFormed) (hc : c.WellFormed) (hp : priorityKey ∉ p) :
    (n.updateChild p c).WellFormed ∧ (n.updateChild p c).leaves = (updateOp p c).apply n.leaves ∧
      ∀ q, (n.updateChild p c).priorities q =
        if p <+: q then c.priorities (q.drop p.length)
        else if ((n.updateChild p c).getChild q).isEmpty then none
        else n.priorities q :=
  ⟨hn.updateChild (writable_of_notMem hc hp), leaves_updateChild hn hc hp,
    priorities_updateChild hn hc hp⟩

/-- A child of a leaf takes the place of its value. -/
theorem updateChild_refines_leaf :
    ((leaf 5 empty).updateChild [⟨"a", by decide⟩] (leaf 1 empty)).leaves [] = none ∧
      ((leaf 5 empty).updateChild [⟨"a", by decide⟩] (leaf 1 empty)).leaves
        [⟨"a", by decide⟩] = some 1 := by
  have h := updateChild_refines (n := leaf 5 empty) (c := leaf 1 empty) (p := [⟨"a", by decide⟩])
    (.leaf 5 .empty) (.leaf 1 .empty) (by decide)
  rw [h.2.1]
  decide

end Update

/-! ## Updates of a priority -/

section Priority

variable {n c : FNode α}

theorem leafValue_updatePriority (n c : FNode α) :
    (n.updatePriority c).leafValue = n.leafValue := by
  cases n with
  | empty => rfl
  | leaf v p => rfl
  | children es p => cases es <;> rfl

theorem getChild_updatePriority (hn : n.WellFormed) {q : List ChildKey} (hq : priorityKey ∉ q)
    (hnil : q ≠ []) : (n.updatePriority c).getChild q = n.getChild q := by
  cases q with
  | nil => exact absurd rfl hnil
  | cons k q =>
    rw [List.mem_cons, not_or] at hq
    have hk : k ≠ priorityKey := Ne.symm hq.1
    rw [getChild_cons hk, getChild_cons hk, getImmediateChild_updatePriority hn hk]

/-- A node with another priority is empty when it was. -/
theorem isEmpty_updatePriority (hn : n.WellFormed) : (n.updatePriority c).isEmpty = n.isEmpty := by
  cases hn with
  | empty => rfl
  | leaf v hp => rfl
  | children hne => simp [updatePriority, isEmpty, hne]

/-- The node at a path after the update of a priority. -/
theorem getChild_updateChild_priorityKey (hn : n.WellFormed) (hc : IsPriority c)
    {r q : List ChildKey} (hr : priorityKey ∉ r) (hq : priorityKey ∉ q) :
    (n.updateChild (r ++ [priorityKey]) c).getChild q =
      if q <+: r then (n.getChild q).updateChild (r.drop q.length ++ [priorityKey]) c
      else n.getChild q := by
  have hwritable : ∀ {s : List ChildKey}, priorityKey ∉ s → Writable c (s ++ [priorityKey]) := by
    intro s hs
    exact (writable_append_iff hs).mpr (by simpa [Writable] using hc)
  split
  · -- at the node and above it the update is seen as one of the child
    rename_i hqr
    obtain ⟨s, rfl⟩ := hqr
    rw [List.append_assoc, List.drop_left]
    exact getChild_updateChild_append hn hq
      (hwritable (priorityKey_notMem_append_iff.mp hr).2)
  · rename_i hqr
    by_cases hrq : r <+: q
    · -- below the node whose priority is updated
      obtain ⟨s, rfl⟩ := hrq
      obtain ⟨-, hs⟩ := priorityKey_notMem_append_iff.mp hq
      have hnil : s ≠ [] := by rintro rfl; exact hqr (by simp)
      rw [getChild_append hr, getChild_append hr,
        getChild_updateChild_append hn hr (by simpa [Writable] using hc),
        updateChild_priorityKey, getChild_updatePriority (hn.getChild r) hs hnil]
    · -- the path is apart from that of the node
      refine getChild_updateChild_of_apart hn (hwritable hr) hq ⟨?_, ?_⟩
      · exact fun h => hrq ((List.prefix_append r [priorityKey]).trans h)
      · intro h
        rcases List.prefix_concat_iff.mp h with rfl | h
        · exact hq (by simp)
        · exact hqr h

/-- The update of a priority empties no node and fills none. -/
theorem isEmpty_updateChild_priorityKey (hn : n.WellFormed) (hc : IsPriority c)
    {r : List ChildKey} (hr : priorityKey ∉ r) :
    (n.updateChild (r ++ [priorityKey]) c).isEmpty = n.isEmpty := by
  induction r generalizing n with
  | nil =>
    rw [List.nil_append, updateChild_priorityKey, isEmpty_updatePriority hn]
  | cons front rest ih =>
    rw [List.mem_cons, not_or] at hr
    have hfront : front ≠ priorityKey := Ne.symm hr.1
    have hchild := hn.getImmediateChild front
    have hd := hchild.updateChild
      ((writable_append_iff hr.2).mpr (show Writable c [priorityKey] by simpa [Writable] using hc))
    have hempty := ih hchild hr.2
    rw [List.cons_append, updateChild_cons hn hc.wellFormed hfront]
    generalize (n.getImmediateChild front).updateChild (rest ++ [priorityKey]) c = d at hd hempty
    cases hn with
    | empty =>
      rw [hd.isEmpty_iff.mp hempty]
      simp [updateImmediateChild, hfront, updateChildren, isEmpty, SortedDict.remove]
    | leaf v hp =>
      have hdempty : d.isEmpty = true := by simpa [getImmediateChild, hfront] using hempty
      simp [updateImmediateChild, hfront, hdempty]
    | @children entries priority hne hs hkey hce hwf hp =>
      have hn := WellFormed.children hne hs hkey hce hwf hp
      obtain ⟨e, he⟩ := List.exists_mem_of_ne_nil _ hne
      have hget : (children entries priority).getImmediateChild e.1 = e.2 := by
        simp [getImmediateChild, hkey e he, SortedDict.get_of_mem hs he]
      -- the child that was there is still not empty
      have hresult := getImmediateChild_updateImmediateChild (k := front) hn hd (hkey e he)
      have hnonempty : (if e.1 = front then d else e.2) ≠ empty := by
        split
        · rename_i heq
          rw [← heq, hget, hwf e he |>.isEmpty_eq_false (hce e he)] at hempty
          rintro rfl
          cases hempty
        · exact hce e he
      rw [hget] at hresult
      rw [hn.isEmpty_eq_false (by simp)]
      refine (hn.updateImmediateChild hd (fun h => absurd h hfront)).isEmpty_eq_false fun h => ?_
      rw [h, getImmediateChild_empty] at hresult
      exact hnonempty hresult.symm

/-- The leaf and the priority of a node above the one whose priority is updated. -/
theorem updateChild_append_priorityKey (hn : n.WellFormed) (hc : IsPriority c)
    {r : List ChildKey} (hr : priorityKey ∉ r) (hnil : r ≠ []) :
    (n.updateChild (r ++ [priorityKey]) c).leafValue = n.leafValue ∧
      (n.updateChild (r ++ [priorityKey]) c).getPriority = n.getPriority := by
  have hempty := isEmpty_updateChild_priorityKey hn hc hr
  cases r with
  | nil => exact absurd rfl hnil
  | cons front rest =>
    rw [List.mem_cons, not_or] at hr
    have hfront : front ≠ priorityKey := Ne.symm hr.1
    have hchild := hn.getImmediateChild front
    have hd := hchild.updateChild
      ((writable_append_iff hr.2).mpr (show Writable c [priorityKey] by simpa [Writable] using hc))
    -- the child on the path is empty after the update exactly when it was before
    have hdempty := isEmpty_updateChild_priorityKey hchild hc hr.2
    rw [List.cons_append, updateChild_cons hn hc.wellFormed hfront] at hempty ⊢
    rw [leafValue_updateImmediateChild hn hfront, getPriority_updateImmediateChild hn hd hfront,
      hempty, hdempty]
    cases hn with
    | empty => exact ⟨ite_self none, rfl⟩
    | leaf v hp => simp [getImmediateChild, hfront]
    | @children entries priority hne =>
      have hempty : (children entries priority).isEmpty = false := by simp [hne]
      rw [hempty]
      exact ⟨ite_self none, rfl⟩

/-- The update of a priority changes no leaf. -/
theorem leaves_updateChild_priorityKey (hn : n.WellFormed) (hc : IsPriority c)
    {r : List ChildKey} (hr : priorityKey ∉ r) :
    (n.updateChild (r ++ [priorityKey]) c).leaves = n.leaves := by
  funext q
  simp only [leaves]
  split
  · rfl
  rename_i hq
  rw [getChild_updateChild_priorityKey hn hc hr hq]
  split
  · rename_i hqr
    obtain ⟨s, rfl⟩ := hqr
    rw [List.drop_left]
    by_cases hnil : s = []
    · rw [hnil, List.nil_append, updateChild_priorityKey, leafValue_updatePriority]
    · exact (updateChild_append_priorityKey (hn.getChild q) hc
        (priorityKey_notMem_append_iff.mp hr).2 hnil).1
  · rfl

/-- The update of a priority puts it at a node that is not empty, and changes no other. -/
theorem priorities_updateChild_priorityKey (hn : n.WellFormed) (hc : IsPriority c)
    {r : List ChildKey} (hr : priorityKey ∉ r) (q : List ChildKey) :
    (n.updateChild (r ++ [priorityKey]) c).priorities q =
      if q = r ∧ (n.getChild r).isEmpty = false then c.leafValue else n.priorities q := by
  simp only [priorities]
  by_cases hq : priorityKey ∈ q
  · rw [if_pos hq, if_pos hq, if_neg]
    rintro ⟨rfl, -⟩
    exact hr hq
  rw [if_neg hq, if_neg hq, getChild_updateChild_priorityKey hn hc hr hq]
  by_cases hqr : q <+: r
  · obtain ⟨s, rfl⟩ := hqr
    rw [if_pos (List.prefix_append q s), List.drop_left]
    -- only at the node itself is the new priority read
    by_cases hnil : s = []
    · subst hnil
      rw [List.nil_append, updateChild_priorityKey, getPriority_updatePriority (hn.getChild q),
        List.append_nil]
      cases hempty : (n.getChild q).isEmpty with
      | true => rw [(hn.getChild q).isEmpty_iff.mp hempty]; simp [getPriority, leafValue]
      | false => simp
    · have hne : q ≠ q ++ s := fun h => hnil (by simpa using h)
      rw [(updateChild_append_priorityKey (hn.getChild q) hc
        (priorityKey_notMem_append_iff.mp hr).2 hnil).2, if_neg (fun h => hne h.1)]
  · rw [if_neg hqr, if_neg]
    rintro ⟨rfl, -⟩
    exact hqr List.prefix_rfl

/-- The update of a priority keeps a node well formed, changes no leaf, puts the priority at a
node that is not empty, and changes no other priority. -/
theorem updateChild_priorityKey_refines (hn : n.WellFormed) (hc : IsPriority c)
    {r : List ChildKey} (hr : priorityKey ∉ r) :
    (n.updateChild (r ++ [priorityKey]) c).WellFormed ∧
      (n.updateChild (r ++ [priorityKey]) c).leaves = n.leaves ∧
      ∀ q, (n.updateChild (r ++ [priorityKey]) c).priorities q =
        if q = r ∧ (n.getChild r).isEmpty = false then c.leafValue else n.priorities q :=
  ⟨hn.updateChild ((writable_append_iff hr).mpr (by simpa [Writable] using hc)),
    leaves_updateChild_priorityKey hn hc hr, priorities_updateChild_priorityKey hn hc hr⟩

/-- A child of a node with two children gets a priority, and its sibling keeps having none. -/
theorem updateChild_priorityKey_refines_children :
    let n : FNode ℕ := (empty.updateChild [⟨"a", by decide⟩] (leaf 5 empty)).updateChild
      [⟨"b", by decide⟩] (leaf 6 empty)
    let m := n.updateChild ([⟨"b", by decide⟩] ++ [priorityKey]) (leaf 1 empty)
    m.leaves = n.leaves ∧ m.priorities [⟨"a", by decide⟩] = none ∧
      m.priorities [⟨"b", by decide⟩] = some 1 := by
  intro n m
  have hwrite (k : ChildKey) (v : ℕ) (hk : priorityKey ∉ [k]) : (leaf v empty).Writable [k] :=
    writable_of_notMem (.leaf v .empty) hk
  have hn : n.WellFormed :=
    (WellFormed.empty.updateChild (hwrite _ 5 (by decide))).updateChild (hwrite _ 6 (by decide))
  obtain ⟨-, hleaves, hpriorities⟩ := updateChild_priorityKey_refines hn (.leaf 1)
    (show priorityKey ∉ [(⟨"b", by decide⟩ : ChildKey)] by decide)
  refine ⟨hleaves, ?_, ?_⟩
  · rw [hpriorities]
    decide
  · rw [hpriorities]
    decide

end Priority

/-! ## Equality -/

/-- A node that is not empty has a leaf. -/
theorem WellFormed.exists_leaf {n : FNode α} (hn : n.WellFormed) (hne : n ≠ .empty) :
    ∃ q v, n.leaves q = some v := by
  induction hn with
  | empty => exact absurd rfl hne
  | leaf v hp => exact ⟨[], v, leaves_nil _⟩
  | @children entries priority hnil hs hkey hce hwf hp ih =>
    obtain ⟨e, he⟩ := List.exists_mem_of_ne_nil _ hnil
    obtain ⟨q, v, hv⟩ := ih e he (hce e he)
    refine ⟨e.1 :: q, v, ?_⟩
    have hkey' : priorityKey ∉ [e.1] := by simpa using Ne.symm (hkey e he)
    have hchild : (FNode.children entries priority).getChild [e.1] = e.2 := by
      rw [getChild_cons (hkey e he), getChild_nil]
      simp [FNode.getImmediateChild, hkey e he, SortedDict.get_of_mem hs he]
    rw [← List.singleton_append, leaves_append hkey', hchild, hv]

/-- A priority is determined by its value. -/
theorem IsPriority.ext {p q : FNode α} (hp : IsPriority p) (hq : IsPriority q)
    (h : p.leafValue = q.leafValue) : p = q := by
  cases hp <;> cases hq
  · rfl
  · cases h
  · cases h
  · obtain rfl := Option.some.inj h
    rfl

/-- Nodes with the same leaves have the same leaves below each key. -/
theorem leaves_getImmediateChild_eq {n m : FNode α} (h : n.leaves = m.leaves) {k : ChildKey}
    (hk : k ≠ priorityKey) : (n.getImmediateChild k).leaves = (m.getImmediateChild k).leaves := by
  have hmem : priorityKey ∉ [k] := by simpa using Ne.symm hk
  funext q
  have hq := congrFun h ([k] ++ q)
  rwa [leaves_append hmem, leaves_append hmem, getChild_cons hk, getChild_cons hk, getChild_nil,
    getChild_nil] at hq

/-- Nodes with the same priorities have the same priorities below each key. -/
theorem priorities_getImmediateChild_eq {n m : FNode α} (h : n.priorities = m.priorities)
    {k : ChildKey} (hk : k ≠ priorityKey) :
    (n.getImmediateChild k).priorities = (m.getImmediateChild k).priorities := by
  have hmem : priorityKey ∉ [k] := by simpa using Ne.symm hk
  funext q
  have hq := congrFun h ([k] ++ q)
  rwa [priorities_append hmem, priorities_append hmem, getChild_cons hk, getChild_cons hk,
    getChild_nil, getChild_nil] at hq

/-- The entries of a node are determined by its children. -/
theorem WellFormed.entries_eq_of_getImmediateChild_eq {entries entries' : List (ChildKey × FNode α)}
    {priority priority' : FNode α} (hn : (FNode.children entries priority).WellFormed)
    (hm : (FNode.children entries' priority').WellFormed)
    (h : ∀ k ≠ priorityKey, (FNode.children entries priority).getImmediateChild k =
      (FNode.children entries' priority').getImmediateChild k) : entries = entries' := by
  have hs : SortedDict.Sorted keyComparator entries := by
    cases hn with
    | children _ hs => exact hs
  have hs' : SortedDict.Sorted keyComparator entries' := by
    cases hm with
    | children _ hs => exact hs
  refine SortedDict.eq_of_get_eq hs hs' fun k => Option.ext fun l => ?_
  rw [hn.get_eq_some_iff, hm.get_eq_some_iff]
  exact and_congr_right fun hk => by rw [h k hk]

/-- A well-formed node is determined by its leaves and its priorities. -/
theorem WellFormed.eq_of_leaves_eq {n m : FNode α} (hn : n.WellFormed) (hm : m.WellFormed)
    (hleaves : n.leaves = m.leaves) (hpriorities : n.priorities = m.priorities) : n = m := by
  -- over the first node: each child is read through the key it has in both
  induction hn generalizing m with
  | empty =>
    by_contra hne
    obtain ⟨q, v, hv⟩ := hm.exists_leaf (Ne.symm hne)
    rw [← hleaves, leaves_empty] at hv
    cases hv
  | @leaf v p hp =>
    have hvalue := congrFun hleaves []
    have hprio := congrFun hpriorities []
    rw [leaves_nil, leaves_nil] at hvalue
    rw [priorities_nil, priorities_nil] at hprio
    cases hm with
    | empty => cases hvalue
    | leaf w hq =>
      obtain rfl : v = w := Option.some.inj hvalue
      rw [hp.ext hq hprio]
    | children => cases hvalue
  | @children entries priority hne hs hkey hce hwf hp ih =>
    have hn := WellFormed.children hne hs hkey hce hwf hp
    cases hm with
    | empty =>
      obtain ⟨q, v, hv⟩ := hn.exists_leaf (by simp)
      rw [hleaves, leaves_empty] at hv
      cases hv
    | leaf w hq =>
      have hvalue := congrFun hleaves []
      rw [leaves_nil, leaves_nil] at hvalue
      cases hvalue
    | @children entries' priority' hne' hs' hkey' hce' hwf' hp' =>
      have hm := WellFormed.children hne' hs' hkey' hce' hwf' hp'
      have hprio := congrFun hpriorities []
      rw [priorities_nil, priorities_nil] at hprio
      have hchild : ∀ k ≠ priorityKey, (FNode.children entries priority).getImmediateChild k =
          (FNode.children entries' priority').getImmediateChild k := by
        intro k hk
        have hwf' := hm.getImmediateChild k
        cases hget : SortedDict.get keyComparator k entries with
        | some l =>
          obtain ⟨e, he, heq, rfl⟩ := SortedDict.exists_mem_of_get_eq_some hget
          have hl := leaves_getImmediateChild_eq hleaves hk
          have hp := priorities_getImmediateChild_eq hpriorities hk
          rw [(hn.get_eq_some_iff.mp hget).2.2] at hl hp ⊢
          exact ih e he hwf' hl hp
        | none =>
          -- a child of the other node would have a leaf
          have hempty : (FNode.children entries priority).getImmediateChild k = .empty := by
            simp [FNode.getImmediateChild, hk, hget]
          by_contra hne
          rw [hempty] at hne
          obtain ⟨q, v, hv⟩ := hwf'.exists_leaf (Ne.symm hne)
          rw [← leaves_getImmediateChild_eq hleaves hk, hempty, leaves_empty] at hv
          cases hv
      rw [hn.entries_eq_of_getImmediateChild_eq hm hchild, hp.ext hp' hprio]

/-- Two updates of different children lead to one node in either order. -/
theorem eq_of_leaves_eq_two_orders :
    ((empty.updateChild [⟨"a", by decide⟩] (leaf 1 empty)).updateChild [⟨"b", by decide⟩]
        (leaf 2 empty) : FNode ℕ) =
      (empty.updateChild [⟨"b", by decide⟩] (leaf 2 empty)).updateChild [⟨"a", by decide⟩]
        (leaf 1 empty) := by
  have ha : priorityKey ∉ [(⟨"a", by decide⟩ : ChildKey)] := by decide
  have hb : priorityKey ∉ [(⟨"b", by decide⟩ : ChildKey)] := by decide
  have hfirst : (empty.updateChild [⟨"a", by decide⟩] (leaf 1 empty)).WellFormed :=
    WellFormed.empty.updateChild (writable_of_notMem (.leaf 1 .empty) ha)
  have hsecond : (empty.updateChild [⟨"b", by decide⟩] (leaf 2 empty)).WellFormed :=
    WellFormed.empty.updateChild (writable_of_notMem (.leaf 2 .empty) hb)
  refine WellFormed.eq_of_leaves_eq
    (hfirst.updateChild (writable_of_notMem (.leaf 2 .empty) hb))
    (hsecond.updateChild (writable_of_notMem (.leaf 1 .empty) ha)) ?_ ?_
  · rw [leaves_updateChild hfirst (.leaf 2 .empty) hb, leaves_updateChild .empty (.leaf 1 .empty) ha,
      leaves_updateChild hsecond (.leaf 1 .empty) ha, leaves_updateChild .empty (.leaf 2 .empty) hb]
    -- writes to paths that lie apart may be exchanged
    let first : Op ChildKey ℕ := updateOp [⟨"a", by decide⟩] (leaf 1 empty)
    let second : Op ChildKey ℕ := updateOp [⟨"b", by decide⟩] (leaf 2 empty)
    have hapart : ([first, second].map Op.path).Pairwise Apart := by decide
    have hapart' : ([second, first].map Op.path).Pairwise Apart := by decide
    exact applyAll_eq_of_perm (.of_pairwise_apart hapart) (.of_pairwise_apart hapart')
      (.swap second first []) _
  · rfl

end LearnCode.FirebaseDatabase.FNode
