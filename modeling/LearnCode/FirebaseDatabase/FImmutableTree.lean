import LearnCode.Library.SortedDict
import Mathlib.Data.List.Infix
import Mathlib.Data.List.Nodup

/-!
# Trees of values

`FImmutableTree`: values at paths, in a tree that has no branch without a value. The client keeps
its pending writes and its sync points in such trees.

## Main definitions

* `FImmutableTree κ ν`: the value of a node, if it has one, and its children by their keys;
* `setValue`, `removeValueAtPath`, `setTree`, `subtreeAtPath`, `valueAtPath`: the operations;
* `findRootMostMatchingPath`, `leafMostValueOnPath`: the first and the last value on a path;
* `forEach`: the values with their paths, in the order they are visited;
* `Pruned cmp t`: the keys ascend and no branch is without a value.

## Main results

* `valueAtPath_setValue`, `valueAtPath_removeValueAtPath`, `valueAtPath_setTree`: what an operation
  at one path does to the value at every path;
* `Pruned.setValue`, `Pruned.removeValueAtPath`, `Pruned.setTree`: the operations leave no branch
  without a value;
* `rootMostValueOnPath_eq`, `leafMostValueOnPath_eq`: the first and the last matching value on a
  path;
* `mem_forEach_iff`, `nodup_forEach`: each value is visited once;
* `Pruned.eq_of_valueAtPath_eq`: a tree is determined by the values at its paths;
* `foldl_perform_refines`: after any run of operations a tree is the map they leave.
-/

namespace LearnCode.FirebaseDatabase

/-- `FImmutableTree`, with the entries of its dictionary of children in the order of the keys. -/
inductive FImmutableTree (κ ν : Type) : Type where
  | node (value : Option ν) (children : List (κ × FImmutableTree κ ν))

/-- `FTuplePathValue`, for a part of a path. -/
structure FTuplePathValue {κ : Type} (relativePath : List κ) (ν : Type) where
  /-- `path`. -/
  path : List κ
  /-- `value`. -/
  value : ν
  /-- The path is a part of the one that was followed. -/
  isPrefix : path <+: relativePath

namespace FImmutableTree

variable {κ ν : Type} (cmp : κ → κ → Ordering)

/-- `value`. -/
def value : FImmutableTree κ ν → Option ν
  | node value _ => value

/-- `children`. -/
def children : FImmutableTree κ ν → List (κ × FImmutableTree κ ν)
  | node _ children => children

/-- `empty`. -/
def empty : FImmutableTree κ ν := node none []

/-- `isEmpty`. -/
def isEmpty (t : FImmutableTree κ ν) : Bool := t.value.isNone && t.children.isEmpty

/-- `findRootMostMatchingPath:predicate:`. -/
def findRootMostMatchingPath (predicate : ν → Bool) :
    (relativePath : List κ) → FImmutableTree κ ν → Option (FTuplePathValue relativePath ν)
  | [], t => (t.value.filter predicate).map fun value => ⟨[], value, List.nil_prefix⟩
  | front :: rest, t =>
    ((t.value.filter predicate).map fun value => ⟨[], value, List.nil_prefix⟩).or
      ((SortedDict.get cmp front t.children).bind fun child =>
        (findRootMostMatchingPath predicate rest child).map fun found =>
          ⟨front :: found.path, found.value, List.cons_prefix_cons.mpr ⟨rfl, found.isPrefix⟩⟩)

/-- `findRootMostValueAndPath:`. -/
def findRootMostValueAndPath (relativePath : List κ) (t : FImmutableTree κ ν) :
    Option (FTuplePathValue relativePath ν) :=
  findRootMostMatchingPath cmp (fun _ => true) relativePath t

/-- `rootMostValueOnPath:matching:`. -/
def rootMostValueOnPath (predicate : ν → Bool) : List κ → FImmutableTree κ ν → Option ν
  | [], t => t.value.filter predicate
  | front :: rest, t =>
    (t.value.filter predicate).or
      ((SortedDict.get cmp front t.children).bind (rootMostValueOnPath predicate rest))

/-- The loop of `leafMostValueOnPath:matching:`, from a tree and the value that is current. -/
def leafMostValueLoop (predicate : ν → Bool) :
    List κ → FImmutableTree κ ν → (currentValue : Option ν) → Option ν
  | [], _, currentValue => currentValue
  | key :: rest, currentTree, currentValue =>
    match SortedDict.get cmp key currentTree.children with
    | none => currentValue
    | some tree =>
      leafMostValueLoop predicate rest tree ((tree.value.filter predicate).or currentValue)

/-- `leafMostValueOnPath:matching:`; the value of the tree itself is not asked to match. -/
def leafMostValueOnPath (predicate : ν → Bool) (relativePath : List κ)
    (t : FImmutableTree κ ν) : Option ν :=
  leafMostValueLoop cmp predicate relativePath t t.value

/-- `subtreeAtPath:`. -/
def subtreeAtPath : (relativePath : List κ) → FImmutableTree κ ν → FImmutableTree κ ν
  | [], t => t
  | front :: rest, t =>
    match SortedDict.get cmp front t.children with
    | some childTree => subtreeAtPath rest childTree
    | none => empty

/-- `valueAtPath:`. -/
def valueAtPath : (relativePath : List κ) → FImmutableTree κ ν → Option ν
  | [], t => t.value
  | front :: rest, t => (SortedDict.get cmp front t.children).bind (valueAtPath rest)

/-- `setValue:atPath:`. -/
def setValue (newValue : ν) : (relativePath : List κ) → FImmutableTree κ ν → FImmutableTree κ ν
  | [], t => node (some newValue) t.children
  | front :: rest, t =>
    let child := (SortedDict.get cmp front t.children).getD empty
    node t.value (SortedDict.insert cmp front (setValue newValue rest child) t.children)

/-- The children after the tree at a key was replaced. -/
def replaceChild (key : κ) (newChild : FImmutableTree κ ν)
    (children : List (κ × FImmutableTree κ ν)) : List (κ × FImmutableTree κ ν) :=
  if newChild.isEmpty then SortedDict.remove cmp key children
  else SortedDict.insert cmp key newChild children

/-- `removeValueAtPath:`. -/
def removeValueAtPath : (relativePath : List κ) → FImmutableTree κ ν → FImmutableTree κ ν
  | [], t => if t.children.isEmpty then empty else node none t.children
  | front :: rest, t =>
    match SortedDict.get cmp front t.children with
    | some child =>
      let newChildren := replaceChild cmp front (removeValueAtPath rest child) t.children
      if t.value.isNone && newChildren.isEmpty then empty else node t.value newChildren
    | none => t

/-- `setTree:atPath:`. -/
def setTree : FImmutableTree κ ν → (newTree : FImmutableTree κ ν) → (relativePath : List κ) →
    FImmutableTree κ ν
  | _, newTree, [] => newTree
  | t, newTree, front :: rest =>
    let child := (SortedDict.get cmp front t.children).getD empty
    node t.value (replaceChild cmp front (child.setTree newTree rest) t.children)

mutual

/-- `forEachPathSoFar:withBlock:`: what the block is called with, in the order of the calls. -/
def forEachPathSoFar (pathSoFar : List κ) : FImmutableTree κ ν → List (List κ × ν)
  | node value children =>
    forEachChildren pathSoFar children ++ (value.map fun v => (pathSoFar, v)).toList

/-- The loop of `forEachPathSoFar:withBlock:`. -/
def forEachChildren (pathSoFar : List κ) :
    List (κ × FImmutableTree κ ν) → List (List κ × ν)
  | [] => []
  | (childKey, childTree) :: rest =>
    forEachPathSoFar (pathSoFar ++ [childKey]) childTree ++ forEachChildren pathSoFar rest

end

/-- `forEach:`. -/
def forEach (t : FImmutableTree κ ν) : List (List κ × ν) := forEachPathSoFar [] t

/-- The keys ascend, and no branch is without a value. -/
inductive Pruned : FImmutableTree κ ν → Prop
  | node (value : Option ν) {children : List (κ × FImmutableTree κ ν)} :
      SortedDict.Sorted cmp children → (∀ e ∈ children, e.2.isEmpty = false) →
      (∀ e ∈ children, Pruned e.2) → Pruned (node value children)

variable {cmp}

@[simp] theorem value_node (v : Option ν) (es : List (κ × FImmutableTree κ ν)) :
    (node v es).value = v := rfl

@[simp] theorem children_node (v : Option ν) (es : List (κ × FImmutableTree κ ν)) :
    (node v es).children = es := rfl

@[simp] theorem isEmpty_empty : (empty : FImmutableTree κ ν).isEmpty = true := rfl

@[simp] theorem value_empty : (empty : FImmutableTree κ ν).value = none := rfl

@[simp] theorem children_empty : (empty : FImmutableTree κ ν).children = [] := rfl

/-- Only one tree is empty. -/
theorem isEmpty_iff {t : FImmutableTree κ ν} : t.isEmpty = true ↔ t = empty := by
  obtain ⟨v, es⟩ := t
  simp [isEmpty, empty]

theorem pruned_empty : Pruned cmp (empty : FImmutableTree κ ν) :=
  .node none SortedDict.sorted_nil (by simp) (by simp)

/-- A value without children. -/
theorem pruned_leaf (v : ν) : Pruned cmp (node (some v) [] : FImmutableTree κ ν) :=
  .node _ SortedDict.sorted_nil (by simp) (by simp)

theorem valueAtPath_nil (t : FImmutableTree κ ν) : t.valueAtPath cmp [] = t.value := by
  cases t
  rfl

theorem valueAtPath_cons (front : κ) (rest : List κ) (t : FImmutableTree κ ν) :
    t.valueAtPath cmp (front :: rest) =
      (SortedDict.get cmp front t.children).bind (valueAtPath cmp rest) := by
  cases t
  rfl

@[simp] theorem valueAtPath_empty (path : List κ) :
    (empty : FImmutableTree κ ν).valueAtPath cmp path = none := by
  cases path with
  | nil => rfl
  | cons front rest => rfl

/-- A missing child is read like the empty tree. -/
theorem valueAtPath_getD (o : Option (FImmutableTree κ ν)) (path : List κ) :
    (o.getD empty).valueAtPath cmp path = o.bind (valueAtPath cmp path) := by
  cases o with
  | none => exact valueAtPath_empty path
  | some t => rfl

/-! ## Operations -/

section Operations

variable [Std.TransCmp cmp] [Std.LawfulEqCmp cmp] [DecidableEq κ]

/-- The children after one of them was replaced, read like the empty tree where they are missing. -/
theorem get_replaceChild (k : κ) (t : FImmutableTree κ ν) (es : List (κ × FImmutableTree κ ν))
    (j : κ) :
    (SortedDict.get cmp j (replaceChild cmp k t es)).getD empty =
      if j = k then t else (SortedDict.get cmp j es).getD empty := by
  unfold replaceChild
  split
  · rename_i hempty
    rw [SortedDict.get_remove_of_lawful]
    split
    · exact (isEmpty_iff.mp hempty).symm
    · rfl
  · rw [SortedDict.get_insert_of_lawful]
    split <;> rfl

/-- The values after a value was set. -/
theorem valueAtPath_setValue (v : ν) (p q : List κ) (t : FImmutableTree κ ν) :
    (t.setValue cmp v p).valueAtPath cmp q = if q = p then some v else t.valueAtPath cmp q := by
  induction p generalizing t q with
  | nil =>
    cases q with
    | nil => rfl
    | cons j q => rfl
  | cons k p ih =>
    cases q with
    | nil => rfl
    | cons j q =>
      simp only [setValue, valueAtPath_cons, children_node, SortedDict.get_insert_of_lawful]
      by_cases hjk : j = k
      · subst hjk
        rw [if_pos rfl, Option.bind_some, ih, valueAtPath_getD]
        simp
      · simp [hjk]

/-- The values after a value was removed. -/
theorem valueAtPath_removeValueAtPath (p q : List κ) (t : FImmutableTree κ ν) :
    (t.removeValueAtPath cmp p).valueAtPath cmp q =
      if q = p then none else t.valueAtPath cmp q := by
  induction p generalizing t q with
  | nil =>
    cases hempty : t.children.isEmpty with
    | true =>
      rw [removeValueAtPath, if_pos hempty, valueAtPath_empty]
      cases q with
      | nil => rfl
      | cons j q => simp [valueAtPath_cons, List.isEmpty_iff.mp hempty]
    | false =>
      rw [removeValueAtPath, if_neg (by simp [hempty])]
      cases q with
      | nil => rfl
      | cons j q => rfl
  | cons k p ih =>
    simp only [removeValueAtPath]
    cases hget : SortedDict.get cmp k t.children with
    | none =>
      -- there is no value to remove
      simp only
      split
      · rename_i hq
        rw [hq, valueAtPath_cons, hget]
        rfl
      · rfl
    | some child =>
      simp only
      -- the tree that is left when there is nothing in it is the empty one
      have hnode : ∀ {v : Option ν} {es : List (κ × FImmutableTree κ ν)},
          (if v.isNone && es.isEmpty then empty else node v es) = node v es := by
        intro v es
        split
        · rename_i h
          obtain ⟨hv, hes⟩ := Bool.and_eq_true_iff.mp h
          rw [Option.isNone_iff_eq_none.mp hv, List.isEmpty_iff.mp hes]
          rfl
        · rfl
      rw [hnode]
      cases q with
      | nil => rfl
      | cons j q =>
        rw [valueAtPath_cons, children_node, ← valueAtPath_getD, get_replaceChild,
          valueAtPath_cons]
        by_cases hjk : j = k
        · subst hjk
          rw [if_pos rfl, ih, hget]
          simp
        · simp [hjk, valueAtPath_getD]

/-- The values after a tree was set. -/
theorem valueAtPath_setTree (newTree : FImmutableTree κ ν) (p q : List κ)
    (t : FImmutableTree κ ν) :
    (t.setTree cmp newTree p).valueAtPath cmp q =
      if p <+: q then newTree.valueAtPath cmp (q.drop p.length) else t.valueAtPath cmp q := by
  induction p generalizing t q with
  | nil => simp [setTree]
  | cons k p ih =>
    cases q with
    | nil => simp [setTree, valueAtPath_nil]
    | cons j q =>
      rw [setTree, valueAtPath_cons, children_node, ← valueAtPath_getD, get_replaceChild,
        valueAtPath_cons]
      by_cases hjk : j = k
      · subst hjk
        rw [if_pos rfl, ih, valueAtPath_getD]
        simp [List.cons_prefix_cons]
      · simp [hjk, Ne.symm hjk, List.cons_prefix_cons, valueAtPath_getD]

omit [Std.TransCmp cmp] [Std.LawfulEqCmp cmp] [DecidableEq κ] in
/-- The values of a branch. -/
theorem valueAtPath_subtreeAtPath (p q : List κ) (t : FImmutableTree κ ν) :
    (t.subtreeAtPath cmp p).valueAtPath cmp q = t.valueAtPath cmp (p ++ q) := by
  induction p generalizing t with
  | nil => rfl
  | cons k p ih =>
    rw [subtreeAtPath, List.cons_append, valueAtPath_cons]
    cases SortedDict.get cmp k t.children with
    | none => exact valueAtPath_empty q
    | some child => exact ih child

end Operations

/-! ## Values on a path -/

section OnPath

variable (predicate : ν → Bool)

/-- No value is found when none on the path matches. -/
theorem findRootMostMatchingPath_eq_none_iff {path : List κ} {t : FImmutableTree κ ν} :
    t.findRootMostMatchingPath cmp predicate path = none ↔
      ∀ r, r <+: path → (t.valueAtPath cmp r).filter predicate = none := by
  induction path generalizing t with
  | nil =>
    rw [findRootMostMatchingPath, Option.map_eq_none_iff]
    constructor
    · intro h r hr
      rw [List.prefix_nil.mp hr, valueAtPath_nil, h]
    · intro h
      have hnil := h [] List.nil_prefix
      rwa [valueAtPath_nil] at hnil
  | cons front rest ih =>
    -- neither the value of the tree itself nor one in the child on the path is found
    rw [findRootMostMatchingPath, Option.or_eq_none_iff, Option.map_eq_none_iff,
      Option.bind_eq_none_iff]
    simp only [Option.map_eq_none_iff, ih]
    constructor
    · rintro ⟨hv, hchild⟩ r hr
      cases r with
      | nil => rw [valueAtPath_nil, hv]
      | cons k r =>
        obtain ⟨rfl, hrest⟩ := List.cons_prefix_cons.mp hr
        rw [valueAtPath_cons]
        cases hget : SortedDict.get cmp k t.children with
        | none => rfl
        | some child => exact hchild child hget r hrest
    · intro h
      constructor
      · have hnil := h [] List.nil_prefix
        rwa [valueAtPath_nil] at hnil
      · intro child hget r hr
        have hr := h (front :: r) (List.cons_prefix_cons.mpr ⟨rfl, hr⟩)
        rwa [valueAtPath_cons, hget] at hr

/-- What is found is the first matching value on the path. -/
theorem of_findRootMostMatchingPath_eq_some {path : List κ} {t : FImmutableTree κ ν}
    {found : FTuplePathValue path ν}
    (h : t.findRootMostMatchingPath cmp predicate path = some found) :
    t.valueAtPath cmp found.path = some found.value ∧ predicate found.value = true ∧
      ∀ r, r <+: found.path → r ≠ found.path →
        (t.valueAtPath cmp r).filter predicate = none := by
  -- a value that is found at the tree itself has the empty path, which has no proper prefix
  have hroot : ∀ {path : List κ} {t : FImmutableTree κ ν} {found : FTuplePathValue path ν},
      (t.value.filter predicate).map
        (fun value => (⟨[], value, List.nil_prefix⟩ : FTuplePathValue path ν)) = some found →
      t.valueAtPath cmp found.path = some found.value ∧ predicate found.value = true ∧
        ∀ r, r <+: found.path → r ≠ found.path →
          (t.valueAtPath cmp r).filter predicate = none := by
    intro path t found h
    obtain ⟨v, hv, rfl⟩ := Option.map_eq_some_iff.mp h
    obtain ⟨hvalue, hp⟩ := Option.filter_eq_some_iff.mp hv
    exact ⟨(valueAtPath_nil t).trans hvalue, hp,
      fun r hr hne => absurd (List.prefix_nil.mp hr) hne⟩
  induction path generalizing t with
  | nil => exact hroot h
  | cons front rest ih =>
    rw [findRootMostMatchingPath] at h
    rcases Option.or_eq_some_iff.mp h with h | ⟨hv, h⟩
    · exact hroot h
    · -- the value of the tree itself does not match
      obtain ⟨child, hget, h⟩ := Option.bind_eq_some_iff.mp h
      obtain ⟨found', hfound', rfl⟩ := Option.map_eq_some_iff.mp h
      obtain ⟨hvalue, hp, hbefore⟩ := ih hfound'
      refine ⟨by rw [valueAtPath_cons, hget]; exact hvalue, hp, fun r hr hne => ?_⟩
      cases r with
      | nil => rw [valueAtPath_nil, Option.map_eq_none_iff.mp hv]
      | cons k r =>
        obtain ⟨rfl, hrest⟩ := List.cons_prefix_cons.mp hr
        rw [valueAtPath_cons, hget]
        exact hbefore r hrest fun heq => hne (by rw [heq])

/-- The values on the path below a key. -/
theorem filterMap_inits_map_cons (front : κ) (rest : List (List κ)) (t : FImmutableTree κ ν) :
    (rest.map (front :: ·)).filterMap (valueAtPath cmp · t) =
      ((SortedDict.get cmp front t.children).map fun child =>
        rest.filterMap (valueAtPath cmp · child)).getD [] := by
  rw [List.filterMap_map]
  cases hget : SortedDict.get cmp front t.children with
  | none => exact List.filterMap_eq_nil_iff.mpr fun r _ => by simp [valueAtPath_cons, hget]
  | some child => exact List.filterMap_congr fun r _ => by simp [valueAtPath_cons, hget]

/-- The root-most value on a path is the first matching one. -/
theorem rootMostValueOnPath_eq (path : List κ) (t : FImmutableTree κ ν) :
    t.rootMostValueOnPath cmp predicate path =
      (path.inits.filterMap (valueAtPath cmp · t)).find? predicate := by
  -- the value of the tree itself comes before those on the rest of the path
  have hroot : ∀ (value : Option ν) (values : List ν),
      (value.filter predicate).or (values.find? predicate) =
        (value.toList ++ values).find? predicate := by
    intro value values
    cases value with
    | none => rfl
    | some v => by_cases hv : predicate v = true <;> simp [Option.filter, hv]
  induction path generalizing t with
  | nil =>
    have h := hroot t.value []
    rw [List.find?_nil, Option.or_none, List.append_nil] at h
    rw [rootMostValueOnPath, h, List.inits, List.filterMap_cons, valueAtPath_nil]
    cases t.value <;> rfl
  | cons front rest ih =>
    have hchild : (SortedDict.get cmp front t.children).bind
        (rootMostValueOnPath cmp predicate rest) =
        (((SortedDict.get cmp front t.children).map fun child =>
          rest.inits.filterMap (valueAtPath cmp · child)).getD []).find? predicate := by
      cases SortedDict.get cmp front t.children with
      | none => rfl
      | some child => exact ih child
    rw [rootMostValueOnPath, hchild, hroot, List.inits_cons, List.filterMap_cons, valueAtPath_nil,
      filterMap_inits_map_cons]
    cases t.value <;> rfl

/-- The loop goes on with the last matching value on the path, or the current one. -/
theorem leafMostValueLoop_eq (path : List κ) (t : FImmutableTree κ ν) (current : Option ν) :
    leafMostValueLoop cmp predicate path t current =
      (((path.inits.tail.filterMap (valueAtPath cmp · t)).filter predicate).getLast?).or
        current := by
  induction path generalizing t current with
  | nil => rfl
  | cons key rest ih =>
    -- the paths below the child start with that of the child itself
    have hinits : rest.inits = [] :: rest.inits.tail := by cases rest <;> rfl
    rw [leafMostValueLoop, List.inits_cons, List.tail_cons, filterMap_inits_map_cons]
    cases SortedDict.get cmp key t.children with
    | none => rfl
    | some child =>
      simp only [ih, Option.map_some, Option.getD_some]
      rw [hinits, List.filterMap_cons, valueAtPath_nil, List.tail_cons, ← Option.or_assoc]
      congr 1
      cases hvalue : child.value with
      | none => simp
      | some v =>
        by_cases hv : predicate v = true
        · -- a value of the child that matches replaces the current one
          rw [List.filter_cons_of_pos hv, List.getLast?_cons]
          simp only [Option.filter, hv, if_true]
          cases ((rest.inits.tail.filterMap (valueAtPath cmp · child)).filter predicate).getLast?
            <;> rfl
        · rw [List.filter_cons_of_neg hv]
          simp [Option.filter, hv]

/-- The leaf-most value on a path is the last matching one below the tree, or its own value. -/
theorem leafMostValueOnPath_eq (path : List κ) (t : FImmutableTree κ ν) :
    t.leafMostValueOnPath cmp predicate path =
      (((path.inits.tail.filterMap (valueAtPath cmp · t)).filter predicate).getLast?).or
        t.value :=
  leafMostValueLoop_eq predicate path t t.value

end OnPath

/-! ## Trees without empty branches -/

section Pruned

variable {t : FImmutableTree κ ν}

theorem Pruned.sorted (ht : Pruned cmp t) : SortedDict.Sorted cmp t.children := by
  cases ht with
  | node _ hs => exact hs

theorem Pruned.isEmpty_of_mem (ht : Pruned cmp t) {e : κ × FImmutableTree κ ν}
    (he : e ∈ t.children) : e.2.isEmpty = false := by
  cases ht with
  | node _ _ hne => exact hne e he

theorem Pruned.of_mem (ht : Pruned cmp t) {e : κ × FImmutableTree κ ν} (he : e ∈ t.children) :
    Pruned cmp e.2 := by
  cases ht with
  | node _ _ _ hall => exact hall e he

theorem Pruned.get_getD (ht : Pruned cmp t) (k : κ) :
    Pruned cmp ((SortedDict.get cmp k t.children).getD empty) := by
  cases hget : SortedDict.get cmp k t.children with
  | none => exact pruned_empty
  | some child =>
    obtain ⟨e, he, -, rfl⟩ := SortedDict.exists_mem_of_get_eq_some hget
    exact ht.of_mem he

/-- A tree that is not empty has a value. -/
theorem Pruned.exists_value [Std.TransCmp cmp] (ht : Pruned cmp t) (hne : t.isEmpty = false) :
    ∃ q v, t.valueAtPath cmp q = some v := by
  induction ht with
  | @node value children hs hempty hall ih =>
    cases value with
    | some v => exact ⟨[], v, rfl⟩
    | none =>
      cases hchildren : children with
      | nil => rw [hchildren] at hne; cases hne
      | cons e es =>
        have he : e ∈ children := by rw [hchildren]; exact List.mem_cons_self
        obtain ⟨q, v, hv⟩ := ih e he (hempty e he)
        refine ⟨e.1 :: q, v, ?_⟩
        rw [valueAtPath_cons, children_node, ← hchildren, SortedDict.get_of_mem hs he]
        exact hv

/-- Only the empty tree has no value. -/
theorem Pruned.isEmpty_iff [Std.TransCmp cmp] (ht : Pruned cmp t) :
    t.isEmpty = true ↔ ∀ q, t.valueAtPath cmp q = none := by
  constructor
  · intro h q
    rw [FImmutableTree.isEmpty_iff.mp h, valueAtPath_empty]
  · intro h
    by_contra hne
    obtain ⟨q, v, hv⟩ := ht.exists_value (Bool.not_eq_true _ ▸ hne)
    rw [h q] at hv
    cases hv

variable [Std.TransCmp cmp]

theorem Pruned.insert {value : Option ν} {children : List (κ × FImmutableTree κ ν)}
    (ht : Pruned cmp (.node value children)) {k : κ} {child : FImmutableTree κ ν}
    (hchild : Pruned cmp child) (hne : child.isEmpty = false) :
    Pruned cmp (.node value (SortedDict.insert cmp k child children)) := by
  exact .node value (ht.sorted.insert k child)
    (SortedDict.forall_mem_insert hne fun _ he => ht.isEmpty_of_mem he)
    (SortedDict.forall_mem_insert hchild fun _ he => ht.of_mem he)

omit [Std.TransCmp cmp] in
theorem Pruned.remove {value : Option ν} {children : List (κ × FImmutableTree κ ν)}
    (ht : Pruned cmp (.node value children)) (k : κ) :
    Pruned cmp (.node value (SortedDict.remove cmp k children)) :=
  .node value (ht.sorted.remove k) (fun _ he => ht.isEmpty_of_mem (List.mem_of_mem_filter he))
    fun _ he => ht.of_mem (List.mem_of_mem_filter he)

theorem Pruned.replaceChild {value : Option ν} {children : List (κ × FImmutableTree κ ν)}
    (ht : Pruned cmp (.node value children)) {k : κ} {child : FImmutableTree κ ν}
    (hchild : Pruned cmp child) :
    Pruned cmp (.node value (replaceChild cmp k child children)) := by
  unfold FImmutableTree.replaceChild
  split
  · exact ht.remove k
  · rename_i hne
    exact ht.insert hchild (Bool.not_eq_true _ ▸ hne)

/-- Setting a value leaves no branch without one. -/
theorem Pruned.setValue (ht : Pruned cmp t) (v : ν) (p : List κ) :
    Pruned cmp (t.setValue cmp v p) ∧ (t.setValue cmp v p).isEmpty = false := by
  induction p generalizing t with
  | nil =>
    cases ht with
    | node _ hs hne hall => exact ⟨.node _ hs hne hall, rfl⟩
  | cons k p ih =>
    obtain ⟨hchild, hne⟩ := ih (ht.get_getD k)
    obtain ⟨value, children⟩ := t
    refine ⟨ht.insert hchild hne, ?_⟩
    simp only [FImmutableTree.setValue, isEmpty, value_node, children_node]
    rw [List.isEmpty_eq_false_iff.mpr (SortedDict.insert_ne_nil _ _ _), Bool.and_false]

/-- Setting a tree leaves no branch without a value. -/
theorem Pruned.setTree (ht : Pruned cmp t) {newTree : FImmutableTree κ ν}
    (hnew : Pruned cmp newTree) (p : List κ) : Pruned cmp (t.setTree cmp newTree p) := by
  induction p generalizing t with
  | nil => exact hnew
  | cons k p ih =>
    obtain ⟨value, children⟩ := t
    exact ht.replaceChild (ih (ht.get_getD k))

/-- Removing a value leaves no branch without one. -/
theorem Pruned.removeValueAtPath (ht : Pruned cmp t) (p : List κ) :
    Pruned cmp (t.removeValueAtPath cmp p) := by
  induction p generalizing t with
  | nil =>
    cases ht with
    | node _ hs hne hall =>
      simp only [FImmutableTree.removeValueAtPath]
      split
      · exact pruned_empty
      · exact .node _ hs hne hall
  | cons k p ih =>
    simp only [FImmutableTree.removeValueAtPath]
    cases hget : SortedDict.get cmp k t.children with
    | none => exact ht
    | some child =>
      obtain ⟨e, he, -, rfl⟩ := SortedDict.exists_mem_of_get_eq_some hget
      simp only
      split
      · exact pruned_empty
      · obtain ⟨value, children⟩ := t
        exact ht.replaceChild (ih (ht.of_mem he))

omit [Std.TransCmp cmp] in
/-- A branch has no branch without a value. -/
theorem Pruned.subtreeAtPath (ht : Pruned cmp t) (p : List κ) :
    Pruned cmp (t.subtreeAtPath cmp p) := by
  induction p generalizing t with
  | nil => exact ht
  | cons k p ih =>
    rw [FImmutableTree.subtreeAtPath]
    cases hget : SortedDict.get cmp k t.children with
    | none => exact pruned_empty
    | some child =>
      obtain ⟨e, he, -, rfl⟩ := SortedDict.exists_mem_of_get_eq_some hget
      exact ih (ht.of_mem he)

/-- A tree is determined by the values at its paths. -/
theorem Pruned.eq_of_valueAtPath_eq [Std.LawfulEqCmp cmp] {t' : FImmutableTree κ ν}
    (ht : Pruned cmp t) (ht' : Pruned cmp t')
    (h : ∀ q, t.valueAtPath cmp q = t'.valueAtPath cmp q) : t = t' := by
  induction ht generalizing t' with
  | @node value children hs hempty hall ih =>
    have ht : Pruned cmp (.node value children) := .node value hs hempty hall
    obtain ⟨value', children'⟩ := t'
    have hvalue : value = value' := h []
    -- the branches at a key have the same values, and a branch without values is missing
    have hbranch : ∀ k, (SortedDict.get cmp k children).getD empty =
        (SortedDict.get cmp k children').getD empty := by
      intro k
      have hk : ∀ q, ((SortedDict.get cmp k children).getD empty).valueAtPath cmp q =
          ((SortedDict.get cmp k children').getD empty).valueAtPath cmp q := by
        intro q
        rw [valueAtPath_getD, valueAtPath_getD]
        exact h (k :: q)
      cases hget : SortedDict.get cmp k children with
      | some child =>
        obtain ⟨e, he, -, rfl⟩ := SortedDict.exists_mem_of_get_eq_some hget
        rw [hget] at hk
        exact ih e he (ht'.get_getD k) hk
      | none =>
        rw [hget] at hk
        refine (FImmutableTree.isEmpty_iff.mp ((ht'.get_getD k).isEmpty_iff.mpr fun q => ?_)).symm
        exact (hk q).symm.trans (valueAtPath_empty q)
    have hsome : ∀ {v : Option ν} {es : List (κ × FImmutableTree κ ν)},
        Pruned cmp (.node v es) → ∀ k b, SortedDict.get cmp k es = some b ↔
          (SortedDict.get cmp k es).getD empty = b ∧ b.isEmpty = false := by
      intro v es hes k b
      cases hget : SortedDict.get cmp k es with
      | none =>
        simp only [reduceCtorEq, Option.getD_none, false_iff]
        rintro ⟨rfl, hb⟩
        cases hb
      | some c =>
        obtain ⟨e, he, -, rfl⟩ := SortedDict.exists_mem_of_get_eq_some hget
        simp only [Option.some.injEq, Option.getD_some]
        exact ⟨fun h => ⟨h, h ▸ hes.isEmpty_of_mem he⟩, fun h => h.1⟩
    have hchildren : children = children' := by
      refine SortedDict.eq_of_get_eq hs ht'.sorted fun k => Option.ext fun b => ?_
      rw [hsome ht, hsome ht', hbranch k]
    rw [hvalue, hchildren]

end Pruned

/-! ## Visits -/

section Visits

/-- The loop visits one child after the other. -/
theorem forEachChildren_eq_flatMap (pathSoFar : List κ) (es : List (κ × FImmutableTree κ ν)) :
    forEachChildren pathSoFar es =
      es.flatMap fun e => forEachPathSoFar (pathSoFar ++ [e.1]) e.2 := by
  induction es with
  | nil => rfl
  | cons e es ih => rw [forEachChildren, List.flatMap_cons, ih]

/-- The children are visited before the tree. -/
theorem forEachPathSoFar_node (pathSoFar : List κ) (value : Option ν)
    (es : List (κ × FImmutableTree κ ν)) :
    forEachPathSoFar pathSoFar (node value es) =
      (es.flatMap fun e => forEachPathSoFar (pathSoFar ++ [e.1]) e.2) ++
        (value.map fun v => (pathSoFar, v)).toList := by
  rw [forEachPathSoFar, forEachChildren_eq_flatMap]

variable [Std.TransCmp cmp] [Std.LawfulEqCmp cmp]

/-- What is visited are the values at the paths below. -/
theorem mem_forEachPathSoFar_iff {t : FImmutableTree κ ν} (ht : Pruned cmp t)
    {pathSoFar q : List κ} {v : ν} :
    (q, v) ∈ forEachPathSoFar pathSoFar t ↔
      ∃ r, q = pathSoFar ++ r ∧ t.valueAtPath cmp r = some v := by
  induction ht generalizing pathSoFar with
  | @node value children hs hempty hall ih =>
    rw [forEachPathSoFar_node, List.mem_append, List.mem_flatMap]
    constructor
    · rintro (⟨e, he, hmem⟩ | hmem)
      · obtain ⟨r, rfl, hr⟩ := (ih e he).mp hmem
        refine ⟨e.1 :: r, by simp, ?_⟩
        rw [valueAtPath_cons, children_node, SortedDict.get_of_mem hs he]
        exact hr
      · obtain ⟨w, hw, hpair⟩ := Option.map_eq_some_iff.mp (Option.mem_toList.mp hmem)
        cases hpair
        exact ⟨[], by simp, hw⟩
    · rintro ⟨r, rfl, hr⟩
      cases r with
      | nil =>
        right
        rw [valueAtPath_nil, value_node] at hr
        simp [hr]
      | cons k r =>
        left
        rw [valueAtPath_cons, children_node] at hr
        obtain ⟨child, hget, hchild⟩ := Option.bind_eq_some_iff.mp hr
        obtain ⟨e, he, heq, rfl⟩ := SortedDict.exists_mem_of_get_eq_some hget
        obtain rfl : k = e.1 := Std.LawfulEqCmp.eq_of_compare heq
        exact ⟨e, he, (ih e he).mpr ⟨r, by simp, hchild⟩⟩

/-- What is visited are the values of the tree. -/
theorem mem_forEach_iff {t : FImmutableTree κ ν} (ht : Pruned cmp t) {q : List κ} {v : ν} :
    (q, v) ∈ t.forEach ↔ t.valueAtPath cmp q = some v := by
  simp [forEach, mem_forEachPathSoFar_iff ht]

/-- No path is visited twice. -/
theorem nodup_forEachPathSoFar {t : FImmutableTree κ ν} (ht : Pruned cmp t)
    (pathSoFar : List κ) : ((forEachPathSoFar pathSoFar t).map Prod.fst).Nodup := by
  induction ht generalizing pathSoFar with
  | @node value children hs hempty hall ih =>
    rw [forEachPathSoFar_node, List.map_append, List.map_flatMap]
    refine List.nodup_append.mpr ⟨List.nodup_flatMap.mpr ⟨fun e he => ih e he _, ?_⟩,
      by cases value <;> simp, ?_⟩
    · -- the paths below two children differ at the key
      refine hs.imp_of_mem fun {a b} ha hb hlt q hqa hqb => ?_
      obtain ⟨⟨_, v⟩, hva, rfl⟩ := List.mem_map.mp hqa
      obtain ⟨⟨_, w⟩, hwb, hq⟩ := List.mem_map.mp hqb
      obtain ⟨r, hr, -⟩ := (mem_forEachPathSoFar_iff (hall a ha)).mp hva
      obtain ⟨r', hr', -⟩ := (mem_forEachPathSoFar_iff (hall b hb)).mp hwb
      simp only at hq
      rw [hq, hr, List.append_assoc, List.append_assoc, List.append_cancel_left_eq] at hr'
      rw [show a.1 = b.1 from (List.cons.inj hr').1] at hlt
      rw [show cmp b.1 b.1 = .eq from Std.ReflCmp.compare_self] at hlt
      cases hlt
    · -- the path of the tree itself is not below a child
      intro q hq q' hq' heq
      obtain ⟨e, he, hmem⟩ := List.mem_flatMap.mp hq
      obtain ⟨⟨q₁, v⟩, hv, rfl⟩ := List.mem_map.mp hmem
      obtain ⟨r, hr, -⟩ := (mem_forEachPathSoFar_iff (hall e he)).mp hv
      obtain rfl : q' = pathSoFar := by
        cases value with
        | none => cases hq'
        | some w => simpa using hq'
      have hlen := congrArg List.length ((show q₁ = q' from heq).symm.trans hr)
      simp at hlen

/-- No path is visited twice. -/
theorem nodup_forEach {t : FImmutableTree κ ν} (ht : Pruned cmp t) :
    (t.forEach.map Prod.fst).Nodup :=
  nodup_forEachPathSoFar ht []

end Visits

/-! ## Runs -/

/-- An operation on a tree. -/
inductive Operation (cmp : κ → κ → Ordering) (ν : Type) : Type where
  | setValue (path : List κ) (value : ν)
  | removeValueAtPath (path : List κ)
  | setTree (path : List κ) (tree : FImmutableTree κ ν) (pruned : Pruned cmp tree)

/-- Carry out an operation. -/
def perform (t : FImmutableTree κ ν) : Operation cmp ν → FImmutableTree κ ν
  | .setValue path value => t.setValue cmp value path
  | .removeValueAtPath path => t.removeValueAtPath cmp path
  | .setTree path tree _ => t.setTree cmp tree path

/-- What an operation does to the values by their paths. -/
def Operation.update [DecidableEq κ] (m : List κ → Option ν) :
    Operation cmp ν → List κ → Option ν
  | setValue path value => fun q => if q = path then some value else m q
  | removeValueAtPath path => fun q => if q = path then none else m q
  | setTree path tree _ => fun q =>
    if path <+: q then tree.valueAtPath cmp (q.drop path.length) else m q

section Runs

variable [Std.TransCmp cmp] [Std.LawfulEqCmp cmp] [DecidableEq κ]

/-- An operation leaves no branch without a value, and is one on the values. -/
theorem Pruned.perform {t : FImmutableTree κ ν} (ht : Pruned cmp t)
    (operation : Operation cmp ν) :
    Pruned cmp (t.perform operation) ∧
      (fun q => (t.perform operation).valueAtPath cmp q) =
        operation.update fun q => t.valueAtPath cmp q := by
  cases operation with
  | setValue path value =>
    exact ⟨(ht.setValue value path).1, funext fun q => valueAtPath_setValue value path q t⟩
  | removeValueAtPath path =>
    exact ⟨ht.removeValueAtPath path, funext fun q => valueAtPath_removeValueAtPath path q t⟩
  | setTree path tree hpruned =>
    exact ⟨ht.setTree hpruned path, funext fun q => valueAtPath_setTree tree path q t⟩

/-- After any run of operations no branch is without a value, the values are those of the map the
operations leave, and each is visited once. -/
theorem foldl_perform_refines {t : FImmutableTree κ ν} (ht : Pruned cmp t)
    (operations : List (Operation cmp ν)) :
    Pruned cmp (operations.foldl perform t) ∧
      (∀ q v, (q, v) ∈ (operations.foldl perform t).forEach ↔
        operations.foldl Operation.update (fun q => t.valueAtPath cmp q) q = some v) ∧
      ((operations.foldl perform t).forEach.map Prod.fst).Nodup := by
  have hrun : Pruned cmp (operations.foldl perform t) ∧
      (fun q => (operations.foldl perform t).valueAtPath cmp q) =
        operations.foldl Operation.update fun q => t.valueAtPath cmp q := by
    induction operations generalizing t with
    | nil => exact ⟨ht, rfl⟩
    | cons operation operations ih =>
      obtain ⟨hpruned, hvalues⟩ := ht.perform operation
      rw [List.foldl_cons, List.foldl_cons, ← hvalues]
      exact ih hpruned
  refine ⟨hrun.1, fun q v => ?_, nodup_forEach hrun.1⟩
  rw [mem_forEach_iff hrun.1, ← hrun.2]

/-- Two values are set, and one of them is taken away. -/
theorem foldl_perform_refines_two :
    let operations : List (Operation (compare : String → String → Ordering) Char) :=
      [.setValue ["a", "b"] 'x', .setValue ["a", "c"] 'y', .removeValueAtPath ["a", "b"]]
    (∀ q v, (q, v) ∈ (operations.foldl perform empty).forEach ↔ q = ["a", "c"] ∧ v = 'y') ∧
      ((operations.foldl perform empty).forEach.map Prod.fst).Nodup := by
  intro operations
  obtain ⟨-, hvalues, hnodup⟩ := foldl_perform_refines pruned_empty operations
  refine ⟨fun q v => (hvalues q v).trans ?_, hnodup⟩
  simp only [operations, List.foldl_cons, List.foldl_nil, Operation.update, valueAtPath_empty]
  constructor
  · intro h
    split_ifs at h with hb hc
    exact ⟨hc, (Option.some.inj h).symm⟩
  · rintro ⟨rfl, rfl⟩
    rfl

end Runs

end FImmutableTree

end LearnCode.FirebaseDatabase
