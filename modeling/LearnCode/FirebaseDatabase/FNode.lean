import LearnCode.FirebaseDatabase.KeyOrder
import LearnCode.Library.PathStore
import LearnCode.Library.SortedDict

/-!
# Snapshot nodes

The immutable trees in which the client keeps the data of the database. A node is a leaf with a
value or has children by their keys, and has a priority of its own, which is read and written as
the child ".priority".

## Main definitions

* `FNode`: a leaf, a node with children, or the empty node;
* `getChild`, `updateChild`: the node at a path, and the node with another one at a path;
* `WellFormed`: no child is empty, the keys ascend, and the priority is a leaf without a priority;
* `Writable`: what may be put at a path.

## Main results

* `WellFormed.updateChild`: an update keeps a node well formed;
* `getChild_updateChild_append`, `getChild_updateChild_of_apart`: an update is one of the node at
  each path above its own, and is not seen apart from its path.
-/

namespace LearnCode.FirebaseDatabase

open ChildKey PathStore

/-- `kPayloadPriority`. -/
def priorityKey : ChildKey := ⟨".priority", by decide⟩

/-- `FNode`, with its leaf values in `α`. The entries of a node with children are those of its
dictionary, in the order of the keys. -/
inductive FNode (α : Type) : Type where
  /-- `FEmptyNode`. -/
  | empty
  /-- `FLeafNode`. -/
  | leaf (value : α) (priority : FNode α)
  /-- `FChildrenNode`. -/
  | children (entries : List (ChildKey × FNode α)) (priority : FNode α)

namespace FNode

variable {α : Type}

/-- `isEmpty`. -/
def isEmpty : FNode α → Bool
  | empty => true
  | leaf .. => false
  | children entries _ => entries.isEmpty

/-- `isLeafNode`. -/
def isLeafNode : FNode α → Bool
  | leaf .. => true
  | _ => false

/-- `getPriority`. -/
def getPriority : FNode α → FNode α
  | empty => empty
  | leaf _ priority => priority
  | children _ priority => priority

/-- `updatePriority:`. -/
def updatePriority : FNode α → (aPriority : FNode α) → FNode α
  | empty, _ => empty
  | leaf value _, aPriority => leaf value aPriority
  | children entries _, aPriority =>
    if entries.isEmpty then empty else children entries aPriority

/-- `getImmediateChild:`. -/
def getImmediateChild (childName : ChildKey) : FNode α → FNode α
  | empty => empty
  | leaf _ priority => if childName = priorityKey then priority else empty
  | children entries priority =>
    if childName = priorityKey then priority
    else (SortedDict.get keyComparator childName entries).getD empty

/-- `getChild:`. -/
def getChild : List ChildKey → FNode α → FNode α
  | [], n => n
  -- below its priority a leaf has no other node than the priority
  | front :: _, leaf _ priority => if front = priorityKey then priority else empty
  | front :: rest, n => getChild rest (n.getImmediateChild front)

/-- `hasChild:`. -/
def hasChild (n : FNode α) (childName : ChildKey) : Bool :=
  !(n.getImmediateChild childName).isEmpty

/-- `updateImmediateChild:withNewChild:` of a node with the given children and priority. -/
def updateChildren (entries : List (ChildKey × FNode α)) (priority : FNode α)
    (childName : ChildKey) (newChild : FNode α) : FNode α :=
  let newChildren :=
    if newChild.isEmpty then SortedDict.remove keyComparator childName entries
    else SortedDict.insert keyComparator childName newChild entries
  if newChildren.isEmpty then empty else children newChildren priority

/-- `updateImmediateChild:withNewChild:`. -/
def updateImmediateChild (n : FNode α) (childName : ChildKey) (newChild : FNode α) : FNode α :=
  if childName = priorityKey then n.updatePriority newChild
  else
    match n with
    | empty => updateChildren [] empty childName newChild
    | leaf value priority =>
      if newChild.isEmpty then leaf value priority
      else (updateChildren [] empty childName newChild).updatePriority priority
    | children entries priority => updateChildren entries priority childName newChild

/-- `updateChild:withNewChild:`. -/
def updateChild : FNode α → List ChildKey → (newChild : FNode α) → FNode α
  | _, [], newChild => newChild
  | leaf value priority, front :: rest, newChild =>
    if newChild.isEmpty ∧ front ≠ priorityKey then leaf value priority
    else (leaf value priority).updateImmediateChild front (updateChild empty rest newChild)
  | n, front :: rest, newChild =>
    n.updateImmediateChild front ((n.getImmediateChild front).updateChild rest newChild)

@[simp] theorem isEmpty_empty : (empty : FNode α).isEmpty = true := rfl

@[simp] theorem isEmpty_leaf (v : α) (p : FNode α) : (leaf v p).isEmpty = false := rfl

@[simp] theorem isEmpty_children (es : List (ChildKey × FNode α)) (p : FNode α) :
    (children es p).isEmpty = es.isEmpty := rfl

/-! ## Well-formed nodes -/

/-- A node that can be a priority: a leaf that has no priority of its own, or no priority. -/
inductive IsPriority : FNode α → Prop
  | empty : IsPriority empty
  | leaf (value : α) : IsPriority (leaf value .empty)

/-- No child is empty, the keys ascend, and priorities have none of their own. -/
inductive WellFormed : FNode α → Prop
  | empty : WellFormed empty
  | leaf (value : α) {priority : FNode α} :
      IsPriority priority → WellFormed (leaf value priority)
  | children {entries : List (ChildKey × FNode α)} {priority : FNode α} :
      entries ≠ [] → SortedDict.Sorted keyComparator entries →
      (∀ e ∈ entries, e.1 ≠ priorityKey) → (∀ e ∈ entries, e.2 ≠ .empty) →
      (∀ e ∈ entries, e.2.WellFormed) → IsPriority priority →
      WellFormed (children entries priority)

theorem IsPriority.wellFormed {p : FNode α} (hp : IsPriority p) : p.WellFormed := by
  cases hp with
  | empty => exact .empty
  | leaf value => exact .leaf value .empty

/-- Of the well-formed nodes only the empty one is empty. -/
theorem WellFormed.isEmpty_iff {n : FNode α} (hn : n.WellFormed) :
    n.isEmpty = true ↔ n = .empty := by
  cases hn with
  | empty => simp [isEmpty]
  | leaf => simp [isEmpty]
  | children hne => simp [isEmpty, hne]

theorem WellFormed.isEmpty_eq_false {n : FNode α} (hn : n.WellFormed) (h : n ≠ .empty) :
    n.isEmpty = false := by
  rw [← Bool.not_eq_true, hn.isEmpty_iff]
  exact h

/-! ## Reads -/

@[simp] theorem getImmediateChild_empty (k : ChildKey) :
    (empty : FNode α).getImmediateChild k = empty := rfl

@[simp] theorem getChild_nil (n : FNode α) : n.getChild [] = n := by
  cases n <;> rfl

/-- Below the empty node there is no other. -/
@[simp] theorem getChild_empty (path : List ChildKey) :
    (empty : FNode α).getChild path = empty := by
  induction path with
  | nil => rfl
  | cons front rest ih => exact ih

/-- A child is read below the first component of a path. -/
theorem getChild_cons {front : ChildKey} (h : front ≠ priorityKey) (rest : List ChildKey)
    (n : FNode α) : n.getChild (front :: rest) = (n.getImmediateChild front).getChild rest := by
  cases n with
  | empty => rfl
  | leaf v p => simp [getChild, getImmediateChild, h]
  | children es p => rfl

/-- The priority is read as a child. -/
@[simp] theorem getChild_priorityKey (n : FNode α) : n.getChild [priorityKey] = n.getPriority := by
  cases n with
  | empty => rfl
  | leaf v p => rfl
  | children es p => simp [getChild, getImmediateChild, getPriority]

/-- The node at a path is read component by component. -/
theorem getChild_append {p : List ChildKey} (hp : priorityKey ∉ p) (q : List ChildKey)
    (n : FNode α) : n.getChild (p ++ q) = (n.getChild p).getChild q := by
  induction p generalizing n with
  | nil => simp
  | cons front rest ih =>
    rw [List.mem_cons, not_or] at hp
    rw [List.cons_append, getChild_cons (Ne.symm hp.1), getChild_cons (Ne.symm hp.1), ih hp.2]

/-- The entries of a well-formed node are the children that are not empty. -/
theorem WellFormed.get_eq_some_iff {entries : List (ChildKey × FNode α)} {priority : FNode α}
    (hn : (FNode.children entries priority).WellFormed) {k : ChildKey} {m : FNode α} :
    SortedDict.get keyComparator k entries = some m ↔
      k ≠ priorityKey ∧ m ≠ .empty ∧
        (FNode.children entries priority).getImmediateChild k = m := by
  cases hn with
  | children hne hs hkey hce hwf hp =>
    constructor
    · intro hget
      obtain ⟨e, he, heq, rfl⟩ := SortedDict.exists_mem_of_get_eq_some hget
      obtain rfl : k = e.1 := Std.LawfulEqCmp.eq_of_compare heq
      exact ⟨hkey e he, hce e he, by simp [FNode.getImmediateChild, hkey e he, hget]⟩
    · rintro ⟨hk, hm, hget⟩
      simp only [FNode.getImmediateChild, hk, if_false] at hget
      cases hopt : SortedDict.get keyComparator k entries with
      | none => rw [hopt] at hget; exact absurd hget.symm hm
      | some l => rw [hopt] at hget; exact congrArg some hget

theorem WellFormed.getImmediateChild {n : FNode α} (hn : n.WellFormed) (childName : ChildKey) :
    (n.getImmediateChild childName).WellFormed := by
  cases hn with
  | empty => exact .empty
  | leaf _ hp =>
    simp only [FNode.getImmediateChild]
    split
    · exact hp.wellFormed
    · exact .empty
  | @children entries priority _ _ _ _ hwf hp =>
    simp only [FNode.getImmediateChild]
    split
    · exact hp.wellFormed
    · cases hget : SortedDict.get keyComparator childName entries with
      | none => exact .empty
      | some m =>
        obtain ⟨e, he, -, rfl⟩ := SortedDict.exists_mem_of_get_eq_some hget
        exact hwf e he

theorem WellFormed.getChild {n : FNode α} (hn : n.WellFormed) (path : List ChildKey) :
    (n.getChild path).WellFormed := by
  induction path generalizing n with
  | nil => cases n <;> exact hn
  | cons front rest ih =>
    cases hn with
    | empty => exact ih (WellFormed.empty.getImmediateChild front)
    | leaf v hp =>
      simp only [FNode.getChild]
      split
      · exact hp.wellFormed
      · exact .empty
    | children hne hs hk hc hwf hp =>
      exact ih ((WellFormed.children hne hs hk hc hwf hp).getImmediateChild front)

/-! ## Updates of one child -/

section Immediate

variable {n c : FNode α} {k : ChildKey}

theorem WellFormed.updatePriority (hn : n.WellFormed) (hc : IsPriority c) :
    (n.updatePriority c).WellFormed := by
  cases hn with
  | empty => exact .empty
  | leaf v hp => exact .leaf v hc
  | children hne hs hk hce hwf hp =>
    simp only [FNode.updatePriority]
    rw [if_neg (by simp [hne])]
    exact .children hne hs hk hce hwf hc

/-- A new priority is not seen by the children. -/
theorem getImmediateChild_updatePriority (hn : n.WellFormed) (hk : k ≠ priorityKey) :
    (n.updatePriority c).getImmediateChild k = n.getImmediateChild k := by
  cases hn with
  | empty => rfl
  | leaf v hp => simp [FNode.updatePriority, FNode.getImmediateChild, hk]
  | children hne hs hkey hce hwf hp =>
    simp only [FNode.updatePriority]
    rw [if_neg (by simp [hne])]
    simp [FNode.getImmediateChild, hk]

/-- Only the empty node has no place for a priority. -/
theorem getPriority_updatePriority (hn : n.WellFormed) :
    (n.updatePriority c).getPriority = if n.isEmpty then empty else c := by
  cases hn with
  | empty => rfl
  | leaf v hp => rfl
  | children hne hs hkey hce hwf hp =>
    simp only [FNode.updatePriority]
    simp [hne, isEmpty, getPriority]

/-- The children after one of them was replaced. -/
theorem wellFormed_updateChildren {entries : List (ChildKey × FNode α)} {priority : FNode α}
    (hs : SortedDict.Sorted keyComparator entries) (hkey : ∀ e ∈ entries, e.1 ≠ priorityKey)
    (hce : ∀ e ∈ entries, e.2 ≠ .empty) (hwf : ∀ e ∈ entries, e.2.WellFormed)
    (hp : IsPriority priority) (hc : c.WellFormed) (hk : k ≠ priorityKey) :
    (updateChildren entries priority k c).WellFormed := by
  have hchildren : ∀ newChildren : List (ChildKey × FNode α),
      SortedDict.Sorted keyComparator newChildren → (∀ e ∈ newChildren, e.1 ≠ priorityKey) →
      (∀ e ∈ newChildren, e.2 ≠ .empty) → (∀ e ∈ newChildren, e.2.WellFormed) →
      WellFormed (if newChildren.isEmpty then empty else FNode.children newChildren priority) := by
    intro newChildren hs hkey hce hwf
    split
    · exact .empty
    · rename_i hne
      exact .children (fun h => hne (by rw [h]; rfl)) hs hkey hce hwf hp
  unfold updateChildren
  cases hempty : c.isEmpty with
  | true =>
    rw [if_pos rfl]
    have hsub : ∀ e ∈ SortedDict.remove keyComparator k entries, e ∈ entries :=
      fun e he => List.mem_of_mem_filter he
    exact hchildren _ (hs.remove k) (fun e he => hkey e (hsub e he))
      (fun e he => hce e (hsub e he)) (fun e he => hwf e (hsub e he))
  | false =>
    rw [if_neg Bool.false_ne_true]
    have hnec : c ≠ .empty := by rintro rfl; cases hempty
    exact hchildren _ (hs.insert k c) (SortedDict.forall_mem_insert hk hkey)
      (SortedDict.forall_mem_insert hnec hce) (SortedDict.forall_mem_insert hc hwf)

/-- What the children give after one of them was replaced. -/
theorem getImmediateChild_updateChildren {entries : List (ChildKey × FNode α)}
    {priority : FNode α} (hc : c.WellFormed) {j : ChildKey} (hj : j ≠ priorityKey) :
    (updateChildren entries priority k c).getImmediateChild j =
      if j = k then c else (SortedDict.get keyComparator j entries).getD empty := by
  -- what is read does not depend on whether a child is left
  have hget : (updateChildren entries priority k c).getImmediateChild j =
      (SortedDict.get keyComparator j
        (if c.isEmpty then SortedDict.remove keyComparator k entries
          else SortedDict.insert keyComparator k c entries)).getD empty := by
    unfold updateChildren
    generalize (if c.isEmpty then SortedDict.remove keyComparator k entries
      else SortedDict.insert keyComparator k c entries) = newChildren
    cases newChildren with
    | nil => rfl
    | cons e es => simp [FNode.getImmediateChild, hj]
  rw [hget]
  cases hempty : c.isEmpty with
  | true =>
    rw [if_pos rfl, SortedDict.get_remove_of_lawful]
    split
    · exact (hc.isEmpty_iff.mp hempty).symm
    · rfl
  | false =>
    rw [if_neg Bool.false_ne_true, SortedDict.get_insert_of_lawful]
    split <;> rfl

/-- What a node gives after one of its children was replaced. -/
theorem getImmediateChild_updateImmediateChild (hn : n.WellFormed) (hc : c.WellFormed)
    {j : ChildKey} (hj : j ≠ priorityKey) :
    (n.updateImmediateChild k c).getImmediateChild j =
      if j = k then c else n.getImmediateChild j := by
  -- a child at the key of the priority is none, and a leaf becomes a node with the new child alone
  unfold updateImmediateChild
  split
  · rename_i hk
    rw [getImmediateChild_updatePriority hn hj, if_neg (fun h => hj (h.trans hk))]
  · rename_i hk
    cases hn with
    | empty => exact getImmediateChild_updateChildren hc hj
    | leaf v hp =>
      simp only
      split
      · rename_i hempty
        rw [hc.isEmpty_iff.mp hempty]
        simp [FNode.getImmediateChild, hj]
      · have hwf : (updateChildren [] empty k c).WellFormed :=
          wellFormed_updateChildren SortedDict.sorted_nil (by simp) (by simp) (by simp) .empty hc hk
        rw [getImmediateChild_updatePriority hwf hj, getImmediateChild_updateChildren hc hj]
        simp [FNode.getImmediateChild, hj]
    | children hne hs hkey hce hwf hp =>
      simp only
      rw [getImmediateChild_updateChildren hc hj]
      simp [FNode.getImmediateChild, hj]

/-- A node with another child, or another priority, is well formed. -/
theorem WellFormed.updateImmediateChild (hn : n.WellFormed) (hc : c.WellFormed)
    (hprio : k = priorityKey → IsPriority c) : (n.updateImmediateChild k c).WellFormed := by
  unfold FNode.updateImmediateChild
  split
  · rename_i hk
    exact hn.updatePriority (hprio hk)
  · rename_i hk
    have hsingle : (updateChildren [] .empty k c).WellFormed :=
      wellFormed_updateChildren SortedDict.sorted_nil (by simp) (by simp) (by simp) .empty hc hk
    cases hn with
    | empty => exact hsingle
    | leaf v hp =>
      simp only
      split
      · exact .leaf v hp
      · exact hsingle.updatePriority hp
    | children hne hs hkey hce hwf hp => exact wellFormed_updateChildren hs hkey hce hwf hp hc hk

/-- The value of a leaf. -/
def leafValue : FNode α → Option α
  | leaf v _ => some v
  | _ => none

/-- A leaf is kept when an empty node is put below it, and else no leaf has a child. -/
theorem leafValue_updateImmediateChild (hn : n.WellFormed) (hk : k ≠ priorityKey) :
    (n.updateImmediateChild k c).leafValue = if c.isEmpty then n.leafValue else none := by
  -- a node with replaced children is no leaf
  have hchildren : ∀ (es : List (ChildKey × FNode α)) p,
      (updateChildren es p k c).leafValue = none := by
    intro es p
    unfold updateChildren
    generalize (if c.isEmpty then SortedDict.remove keyComparator k es
      else SortedDict.insert keyComparator k c es) = newChildren
    cases newChildren <;> rfl
  have hupdated : ∀ p, ((updateChildren [] empty k c).updatePriority p).leafValue = none := by
    intro p
    have h := hchildren [] empty
    generalize updateChildren [] empty k c = m at h
    cases m with
    | empty => rfl
    | leaf v q => cases h
    | children es q =>
      cases es <;> rfl
  unfold updateImmediateChild
  rw [if_neg hk]
  cases hn with
  | empty => exact (hchildren [] empty).trans (ite_self none).symm
  | leaf v hp =>
    simp only
    split
    · rfl
    · exact hupdated _
  | children hne hs hkey hce hwf hp => exact (hchildren _ _).trans (ite_self none).symm

/-- The priority of a node is kept when a child is replaced, unless no child is left. -/
theorem getPriority_updateImmediateChild (hn : n.WellFormed) (hc : c.WellFormed)
    (hk : k ≠ priorityKey) :
    (n.updateImmediateChild k c).getPriority =
      if (n.updateImmediateChild k c).isEmpty then empty else n.getPriority := by
  -- with its last child a node loses its priority
  have hchildren : ∀ (es : List (ChildKey × FNode α)) p,
      (updateChildren es p k c).getPriority =
        if (updateChildren es p k c).isEmpty then empty else p := by
    intro es p
    unfold updateChildren
    generalize (if c.isEmpty then SortedDict.remove keyComparator k es
      else SortedDict.insert keyComparator k c es) = newChildren
    cases newChildren <;> simp [getPriority, isEmpty]
  unfold updateImmediateChild
  rw [if_neg hk]
  cases hn with
  | empty => exact hchildren [] empty
  | leaf v hp =>
    simp only
    split
    · rfl
    · have hwf : (updateChildren [] empty k c).WellFormed :=
        wellFormed_updateChildren SortedDict.sorted_nil (by simp) (by simp) (by simp) .empty hc hk
      rw [getPriority_updatePriority hwf]
      cases updateChildren [] empty k c with
      | empty => rfl
      | leaf w q => rfl
      | children es q =>
        cases es <;> rfl
  | children hne hs hkey hce hwf hp => exact hchildren _ _

end Immediate

/-! ## Updates at a path -/

/-- A node may be put at a path: the priority is the last component, if it is one, and what is
put there is a priority. -/
def Writable (c : FNode α) : List ChildKey → Prop
  | [] => c.WellFormed
  | front :: rest => if front = priorityKey then rest = [] ∧ IsPriority c else Writable c rest

theorem Writable.wellFormed {c : FNode α} {path : List ChildKey} (h : Writable c path) :
    c.WellFormed := by
  induction path with
  | nil => exact h
  | cons front rest ih =>
    unfold Writable at h
    split at h
    · exact h.2.wellFormed
    · exact ih h

/-- Any well-formed node may be put at a path without the priority. -/
theorem writable_of_notMem {c : FNode α} (hc : c.WellFormed) {path : List ChildKey}
    (hp : priorityKey ∉ path) : Writable c path := by
  induction path with
  | nil => exact hc
  | cons front rest ih =>
    rw [List.mem_cons, not_or] at hp
    unfold Writable
    rw [if_neg (Ne.symm hp.1)]
    exact ih hp.2

/-- A node may be put below a path without the priority when it may be put at the rest. -/
theorem writable_append_iff {c : FNode α} {p : List ChildKey} (hp : priorityKey ∉ p)
    {q : List ChildKey} : Writable c (p ++ q) ↔ Writable c q := by
  induction p with
  | nil => rfl
  | cons front rest ih =>
    rw [List.mem_cons, not_or] at hp
    rw [List.cons_append, Writable, if_neg (Ne.symm hp.1), ih hp.2]

/-- Nothing is put below the empty node by putting the empty node there. -/
@[simp] theorem updateChild_empty_empty (path : List ChildKey) :
    (empty : FNode α).updateChild path empty = empty := by
  induction path with
  | nil => rfl
  | cons front rest ih =>
    rw [updateChild, getImmediateChild_empty, ih]
    · unfold updateImmediateChild
      split <;> rfl
    · simp

/-- An update is one of the child that the path goes through. -/
theorem updateChild_cons {n c : FNode α} (hn : n.WellFormed) (hc : c.WellFormed)
    {front : ChildKey} (h : front ≠ priorityKey) (rest : List ChildKey) :
    n.updateChild (front :: rest) c =
      n.updateImmediateChild front ((n.getImmediateChild front).updateChild rest c) := by
  cases hn with
  | empty => rfl
  | leaf v hp =>
    rw [updateChild]
    split
    · rename_i hempty
      rw [hc.isEmpty_iff.mp hempty.1]
      simp [getImmediateChild, updateImmediateChild, h, isEmpty]
    · simp [getImmediateChild, h]
  | children hne hs hk hce hwf hp => rfl

/-- The update at the path of a priority. -/
theorem updateChild_priorityKey {n : FNode α} (c : FNode α) :
    n.updateChild [priorityKey] c = n.updatePriority c := by
  cases n with
  | empty => rfl
  | leaf v p => simp [updateChild, updateImmediateChild]
  | children es p => simp [updateChild, updateImmediateChild]

/-- An update keeps a node well formed. -/
theorem WellFormed.updateChild {n c : FNode α} (hn : n.WellFormed) {path : List ChildKey}
    (hc : Writable c path) : (n.updateChild path c).WellFormed := by
  induction path generalizing n with
  | nil => cases n <;> exact hc
  | cons front rest ih =>
    have hcwf := hc.wellFormed
    unfold Writable at hc
    split at hc
    · rename_i hfront
      obtain ⟨rfl, hprio⟩ := hc
      rw [hfront, updateChild_priorityKey]
      exact hn.updatePriority hprio
    · rename_i hfront
      rw [updateChild_cons hn hcwf hfront]
      exact hn.updateImmediateChild (ih (hn.getImmediateChild front) hc)
        fun h => absurd h hfront

/-- At a path above its own an update is one of the node there. -/
theorem getChild_updateChild_append {n c : FNode α} (hn : n.WellFormed) {p : List ChildKey}
    (hp : priorityKey ∉ p) {q : List ChildKey} (hc : Writable c q) :
    (n.updateChild (p ++ q) c).getChild p = (n.getChild p).updateChild q c := by
  induction p generalizing n with
  | nil => simp
  | cons front rest ih =>
    rw [List.mem_cons, not_or] at hp
    have hfront : front ≠ priorityKey := Ne.symm hp.1
    have hchild := hn.getImmediateChild front
    rw [List.cons_append, updateChild_cons hn hc.wellFormed hfront, getChild_cons hfront,
      getChild_cons hfront, getImmediateChild_updateImmediateChild hn
        (hchild.updateChild ((writable_append_iff hp.2).mpr hc)) hfront, if_pos rfl,
      ih hchild hp.2]

/-- An update is not seen apart from its path. -/
theorem getChild_updateChild_of_apart {n c : FNode α} (hn : n.WellFormed) {p q : List ChildKey}
    (hc : Writable c p) (hq : priorityKey ∉ q) (hpq : Apart p q) :
    (n.updateChild p c).getChild q = n.getChild q := by
  induction p generalizing n q with
  | nil => exact absurd (List.nil_prefix) hpq.1
  | cons front rest ih =>
    cases q with
    | nil => exact absurd (List.nil_prefix) hpq.2
    | cons k q =>
      rw [List.mem_cons, not_or] at hq
      have hk : k ≠ priorityKey := Ne.symm hq.1
      have hcwf := hc.wellFormed
      rw [getChild_cons hk, getChild_cons hk]
      unfold Writable at hc
      split at hc
      · -- an update of the priority changes no child
        rename_i hfront
        obtain ⟨rfl, -⟩ := hc
        rw [hfront, updateChild_priorityKey, getImmediateChild_updatePriority hn hk]
      · rename_i hfront
        have hchild := hn.getImmediateChild front
        rw [updateChild_cons hn hcwf hfront,
          getImmediateChild_updateImmediateChild hn (hchild.updateChild hc) hk]
        split
        · -- both paths go through the same child, and part below it
          rename_i heq
          subst heq
          exact ih hchild hc hq.2 ⟨fun h => hpq.1 (List.cons_prefix_cons.mpr ⟨rfl, h⟩),
            fun h => hpq.2 (List.cons_prefix_cons.mpr ⟨rfl, h⟩)⟩
        · rfl

end FNode

end LearnCode.FirebaseDatabase
