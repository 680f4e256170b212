import LearnCode.FirebaseDatabase.FImmutableSortedDictionary
import LearnCode.Library.Iterator

/-!
# Enumeration

The ways to go through a sorted dictionary. A block is called with one entry after the other, in
either direction, until it stops. The enumerators give the keys from a key on: that of the arrays
counts an index up or down, and that of a tree keeps the nodes whose keys are still to come on a
stack, and puts the path to the next key on it.

## Main definitions

* `enumerateKeysAndObjects`: the calls of a block;
* `ArrayEnumerator`: `FArraySortedDictionaryEnumerator`;
* `TreeEnumerator`: `FTreeSortedDictionaryEnumerator`;
* `keyEnumerator`, `keyEnumeratorFrom`, `reverseKeyEnumerator`, `reverseKeyEnumeratorFrom`: the
  enumerators of a dictionary.

## Main results

* `enumerateKeysAndObjects_eq`: in both representations a block is called with the entries in
  the order of the keys, or in the reverse order;
* `call_enumeratorsFrom`: from a key on, both representations give the keys that are not before
  it, or not after it;
* `call_enumerators`: without a key to start at, the reverse enumerator of a tree gives nothing,
  and that of the arrays gives all keys.
-/

namespace LearnCode.FirebaseDatabase

open Iterator FLLRBNode

variable {κ ν : Type}

/-! ## Blocks -/

section Blocks

variable {σ : Type} (action : κ → ν → σ → Bool × σ)

/-- The traversal of a tree visits its entries in their order. -/
theorem FLLRBNode.inorderTraversal_eq (n : FLLRBNode κ ν) (s : σ) :
    n.inorderTraversal action s = visit (fun e => action e.1 e.2) n.entries s := by
  induction n generalizing s with
  | empty => rfl
  | value k v c l r ihl ihr =>
    rw [inorderTraversal, entries_value, visit_append, ihl]
    -- the block is called with the root and the right part only when it did not stop before
    generalize visit (fun e => action e.1 e.2) l.entries s = visited
    obtain ⟨_ | _, s⟩ := visited
    · simp only [visit]
      generalize action k v s = acted
      obtain ⟨_ | _, s⟩ := acted
      · exact ihr s
      · rfl
    · rfl

/-- The reverse traversal of a tree visits its entries in the reverse order. -/
theorem FLLRBNode.reverseTraversal_eq (n : FLLRBNode κ ν) (s : σ) :
    n.reverseTraversal action s = visit (fun e => action e.1 e.2) n.entries.reverse s := by
  induction n generalizing s with
  | empty => rfl
  | value k v c l r ihl ihr =>
    rw [reverseTraversal, entries_value, List.reverse_append, List.reverse_cons,
      List.append_assoc, List.singleton_append, visit_append, ihr]
    generalize visit (fun e => action e.1 e.2) r.entries.reverse s = visited
    obtain ⟨_ | _, s⟩ := visited
    · simp only [visit]
      generalize action k v s = acted
      obtain ⟨_ | _, s⟩ := acted
      · exact ihl s
      · rfl
    · rfl

/-- `enumerateKeysAndObjectsReverse:usingBlock:`, with what the block changes. -/
def FImmutableSortedDictionary.enumerateKeysAndObjects {cmp : κ → κ → Ordering}
    (isReverse : Bool) (d : FImmutableSortedDictionary cmp ν) (s : σ) : σ :=
  match d with
  | array d =>
    (visit (fun e => action e.1 e.2) (if isReverse then d.entries.reverse else d.entries) s).2
  | tree d =>
    if isReverse then (d.root.reverseTraversal action s).2
    else (d.root.inorderTraversal action s).2

/-- In both representations a block is called with the entries in the order of the keys, or in
the reverse order. -/
theorem FImmutableSortedDictionary.enumerateKeysAndObjects_eq {cmp : κ → κ → Ordering}
    (isReverse : Bool) (d : FImmutableSortedDictionary cmp ν) (s : σ) :
    d.enumerateKeysAndObjects action isReverse s =
      (visit (fun e => action e.1 e.2)
        (if isReverse then d.entries.reverse else d.entries) s).2 := by
  cases d with
  | array d => rfl
  | tree d =>
    cases isReverse with
    | false => exact congrArg Prod.snd (d.root.inorderTraversal_eq action s)
    | true => exact congrArg Prod.snd (d.root.reverseTraversal_eq action s)

end Blocks

/-! ## Arrays -/

/-- `FArraySortedDictionaryEnumerator`. -/
structure ArrayEnumerator (κ : Type) where
  /-- `keys`. -/
  keys : List κ
  /-- `pos`. -/
  pos : ℤ
  /-- `reverse`. -/
  reverse : Bool

/-- `nextObject`. -/
def ArrayEnumerator.nextObject (e : ArrayEnumerator κ) : Option κ × ArrayEnumerator κ :=
  if 0 ≤ e.pos ∧ e.pos < e.keys.length then
    (e.keys[e.pos.toNat]?, { e with pos := if e.reverse then e.pos - 1 else e.pos + 1 })
  else (none, e)

/-- The keys that are still to come. -/
def ArrayEnumerator.pending (e : ArrayEnumerator κ) : List κ :=
  if 0 ≤ e.pos ∧ e.pos < e.keys.length then
    if e.reverse then (e.keys.take (e.pos.toNat + 1)).reverse else e.keys.drop e.pos.toNat
  else []

/-- The keys from an index on, when it is the index of a key or the one after the last. -/
theorem ArrayEnumerator.pending_forward (keys : List κ) (i : ℕ) :
    (ArrayEnumerator.mk keys i false).pending = keys.drop i := by
  unfold pending
  split
  · rfl
  · rename_i h
    exact (List.drop_eq_nil_iff.mpr (by simpa using h)).symm

/-- The keys before an index, from the last to the first. -/
theorem ArrayEnumerator.pending_reverse {keys : List κ} {i : ℕ} (h : i ≤ keys.length) :
    (ArrayEnumerator.mk keys ((i : ℤ) - 1) true).pending = (keys.take i).reverse := by
  unfold pending
  split
  · rename_i hpos
    have hi : ((i : ℤ) - 1).toNat + 1 = i := by simp only at hpos; omega
    simp only [hi, if_true]
  · rename_i hpos
    have hi : i = 0 := by simp only at hpos; omega
    simp [hi]

/-- A call gives the first key that is to come, and leaves the others. -/
theorem ArrayEnumerator.nextObject_eq (e : ArrayEnumerator κ) :
    e.nextObject.1 = e.pending.head? ∧ e.nextObject.2.pending = e.pending.tail := by
  obtain ⟨keys, pos, reverse⟩ := e
  by_cases hpos : 0 ≤ pos ∧ pos < keys.length
  · obtain ⟨i, rfl⟩ := Int.eq_ofNat_of_zero_le hpos.1
    have hi : i < keys.length := by exact_mod_cast hpos.2
    simp only [nextObject, if_pos hpos, Int.toNat_natCast]
    cases reverse with
    | false =>
      -- forward the position is the index of the next key
      have hcast : (i : ℤ) + 1 = ((i + 1 : ℕ) : ℤ) := rfl
      rw [pending_forward, if_neg Bool.false_ne_true, hcast, pending_forward]
      exact ⟨by rw [List.head?_drop], by rw [List.tail_drop]⟩
    | true =>
      -- in reverse it is one less than the number of the keys that are left
      have hcast : (i : ℤ) = ((i + 1 : ℕ) : ℤ) - 1 := by omega
      rw [if_pos rfl, pending_reverse hi.le, hcast, pending_reverse hi,
        List.take_succ_eq_append_getElem hi, List.reverse_append]
      exact ⟨List.getElem?_eq_getElem hi, rfl⟩
  · simp [nextObject, pending, hpos]

/-! ## Trees -/

/-- `FTreeSortedDictionaryEnumerator`: the stack, with its top first. -/
structure TreeEnumerator (κ ν : Type) where
  /-- `stack`. -/
  stack : List (FLLRBNode κ ν)
  /-- `isReverse`. -/
  isReverse : Bool

/-- The loop of `nextObject`: the nodes on the path to the key that comes first are put on the
stack. -/
def pushPath (isReverse : Bool) : FLLRBNode κ ν → List (FLLRBNode κ ν) → List (FLLRBNode κ ν)
  | empty, stack => stack
  | value k v c l r, stack =>
    if isReverse then pushPath isReverse r (value k v c l r :: stack)
    else pushPath isReverse l (value k v c l r :: stack)

/-- The loop of `initWithImmutableSortedDictionary:startKey:isReverse:`. Without a key to start
at the comparison is taken to be greater, and in reverse it is flipped all the same. -/
def initStack (cmp : κ → κ → Ordering) (startKey : Option κ) (isReverse : Bool) :
    FLLRBNode κ ν → List (FLLRBNode κ ν) → List (FLLRBNode κ ν)
  | empty, stack => stack
  | value k v c l r, stack =>
    let order := startKey.elim .gt (cmp k)
    match if isReverse then order.swap else order with
    | .lt =>
      if isReverse then initStack cmp startKey isReverse l stack
      else initStack cmp startKey isReverse r stack
    | .eq => value k v c l r :: stack
    | .gt =>
      if isReverse then initStack cmp startKey isReverse r (value k v c l r :: stack)
      else initStack cmp startKey isReverse l (value k v c l r :: stack)

/-- The keys of a tree, in the direction of an enumerator. -/
def keys (isReverse : Bool) (n : FLLRBNode κ ν) : List κ :=
  if isReverse then (n.entries.map Prod.fst).reverse else n.entries.map Prod.fst

theorem keys_value (isReverse : Bool) (k : κ) (v : ν) (c : FLLRBColor) (l r : FLLRBNode κ ν) :
    keys isReverse (value k v c l r) =
      keys isReverse (if isReverse then r else l) ++
        k :: keys isReverse (if isReverse then l else r) := by
  cases isReverse <;> simp [keys]

namespace TreeEnumerator

/-- `initWithImmutableSortedDictionary:startKey:isReverse:`. -/
def init {cmp : κ → κ → Ordering} (d : FTreeSortedDictionary cmp ν) (startKey : Option κ)
    (isReverse : Bool) : TreeEnumerator κ ν where
  stack := initStack cmp startKey isReverse d.root []
  isReverse := isReverse

/-- `nextObject`. -/
def nextObject (e : TreeEnumerator κ ν) : Option κ × TreeEnumerator κ ν :=
  match e.stack with
  | [] => (none, e)
  | empty :: stack => (none, { e with stack })
  | value k _ _ l r :: stack =>
    (some k, { e with stack := pushPath e.isReverse (if e.isReverse then l else r) stack })

/-- The keys that are still to come: those of the nodes on the stack, each followed by the keys
on the side that comes after it. -/
def pending (isReverse : Bool) : List (FLLRBNode κ ν) → List κ
  | [] => []
  | empty :: stack => pending isReverse stack
  | value k _ _ l r :: stack =>
    k :: keys isReverse (if isReverse then l else r) ++ pending isReverse stack

/-- No node on the stack is empty. -/
def Valid (stack : List (FLLRBNode κ ν)) : Prop := ∀ n ∈ stack, n.isEmpty = false

/-- The keys of a tree come before those that were on the stack. -/
theorem pending_pushPath (isReverse : Bool) (n : FLLRBNode κ ν) (stack : List (FLLRBNode κ ν)) :
    pending isReverse (pushPath isReverse n stack) =
      keys isReverse n ++ pending isReverse stack := by
  induction n generalizing stack with
  | empty => cases isReverse <;> rfl
  | value k v c l r ihl ihr =>
    rw [keys_value]
    cases isReverse with
    | false => simp [pushPath, ihl, pending]
    | true => simp [pushPath, ihr, pending]

/-- No empty node is put on the stack. -/
theorem valid_pushPath (isReverse : Bool) (n : FLLRBNode κ ν) {stack : List (FLLRBNode κ ν)}
    (h : Valid stack) : Valid (pushPath isReverse n stack) := by
  induction n generalizing stack with
  | empty => exact h
  | value k v c l r ihl ihr =>
    have hcons : Valid (value k v c l r :: stack) := List.forall_mem_cons.mpr ⟨rfl, h⟩
    cases isReverse with
    | false => exact ihl hcons
    | true => exact ihr hcons

theorem valid_initStack (cmp : κ → κ → Ordering) (startKey : Option κ) (isReverse : Bool)
    (n : FLLRBNode κ ν) {stack : List (FLLRBNode κ ν)} (h : Valid stack) :
    Valid (initStack cmp startKey isReverse n stack) := by
  induction n generalizing stack with
  | empty => exact h
  | value k v c l r ihl ihr =>
    have hcons : Valid (value k v c l r :: stack) := List.forall_mem_cons.mpr ⟨rfl, h⟩
    simp only [initStack]
    cases isReverse <;> split <;> simp_all

/-- A call gives the first key that is to come, and leaves the others. -/
theorem nextObject_eq {e : TreeEnumerator κ ν} (h : Valid e.stack) :
    e.nextObject.1 = (pending e.isReverse e.stack).head? ∧
      pending e.nextObject.2.isReverse e.nextObject.2.stack =
        (pending e.isReverse e.stack).tail ∧
      Valid e.nextObject.2.stack := by
  obtain ⟨stack, isReverse⟩ := e
  cases stack with
  | nil => exact ⟨rfl, rfl, h⟩
  | cons n stack =>
    obtain ⟨hn, hstack⟩ := List.forall_mem_cons.mp h
    cases n with
    | empty => cases hn
    | value k v c l r => exact ⟨rfl, pending_pushPath _ _ _, valid_pushPath _ _ hstack⟩

/-- Without a key to start at, all keys are to come, and in reverse none. -/
theorem pending_initStack_none (cmp : κ → κ → Ordering) (isReverse : Bool) (n : FLLRBNode κ ν)
    (stack : List (FLLRBNode κ ν)) :
    pending isReverse (initStack cmp none isReverse n stack) =
      (if isReverse then [] else keys isReverse n) ++ pending isReverse stack := by
  induction n generalizing stack with
  | empty => cases isReverse <;> rfl
  | value k v c l r ihl ihr =>
    cases isReverse with
    | false => simp [initStack, ihl, pending, keys_value]
    | true => simp [initStack, ihl]

section StartKey

variable {cmp : κ → κ → Ordering} [Std.TransCmp cmp] (startKey : κ)

/-- From a key on, the keys that are not before it are to come. -/
theorem pending_initStack_forward {n : FLLRBNode κ ν} (hn : SortedDict.Sorted cmp n.entries)
    (stack : List (FLLRBNode κ ν)) :
    pending false (initStack cmp (some startKey) false n stack) =
      (n.entries.filter (fun e => cmp e.1 startKey != .lt)).map Prod.fst ++
        pending false stack := by
  induction n generalizing stack with
  | empty => rfl
  | value k v c l r ihl ihr =>
    obtain ⟨hl, hr, hlk, hkr⟩ := SortedDict.sorted_append_cons_iff.mp hn
    rw [entries_value, SortedDict.filter_append_cons hlk hkr (· != .lt)]
    simp only [initStack, Option.elim_some, Bool.false_eq_true, if_false]
    cases hk : cmp startKey k with
    | lt => simp [Std.OrientedCmp.gt_of_lt hk, ihl hl, pending, keys]
    | eq => simp [Std.OrientedCmp.eq_symm hk, pending, keys]
    | gt => simp [Std.OrientedCmp.gt_iff_lt.mp hk, ihr hr]

/-- In reverse, the keys that are not after it are to come, from the last to the first. -/
theorem pending_initStack_reverse {n : FLLRBNode κ ν} (hn : SortedDict.Sorted cmp n.entries)
    (stack : List (FLLRBNode κ ν)) :
    pending true (initStack cmp (some startKey) true n stack) =
      ((n.entries.filter (fun e => cmp e.1 startKey != .gt)).map Prod.fst).reverse ++
        pending true stack := by
  induction n generalizing stack with
  | empty => rfl
  | value k v c l r ihl ihr =>
    obtain ⟨hl, hr, hlk, hkr⟩ := SortedDict.sorted_append_cons_iff.mp hn
    rw [entries_value, SortedDict.filter_append_cons hlk hkr (· != .gt)]
    simp only [initStack, Option.elim_some, if_true]
    cases hk : cmp startKey k with
    | lt => simp [Std.OrientedCmp.gt_of_lt hk, ihl hl]
    | eq => simp [Std.OrientedCmp.eq_symm hk, pending, keys]
    | gt => simp [Std.OrientedCmp.gt_iff_lt.mp hk, ihr hr, pending, keys]

end StartKey

theorem valid_init {cmp : κ → κ → Ordering} (d : FTreeSortedDictionary cmp ν)
    (startKey : Option κ) (isReverse : Bool) : Valid (init d startKey isReverse).stack :=
  valid_initStack cmp startKey isReverse d.root fun _ h => absurd h List.not_mem_nil

/-- The calls of an enumerator give the keys that are to come. -/
theorem call_eq {e : TreeEnumerator κ ν} (h : Valid e.stack) (i : ℕ) :
    call nextObject i e = (pending e.isReverse e.stack)[i]? :=
  let pending' : TreeEnumerator κ ν → List κ := fun e => pending e.isReverse e.stack
  call_eq_getElem? (fun _ h => (nextObject_eq h).1)
    (fun _ h => show pending' _ = (pending' _).tail from (nextObject_eq h).2.1)
    (fun _ h => (nextObject_eq h).2.2) i h

end TreeEnumerator

/-! ## Either representation -/

section Positions

variable {cmp : κ → κ → Ordering} [Std.TransCmp cmp] {startKey : κ} {entries : List (κ × ν)}

/-- From the position of a key on stand the entries that are not before it. -/
theorem drop_findInsertPosition (hs : SortedDict.Sorted cmp entries) :
    entries.drop (findInsertPosition cmp startKey entries 0) =
      entries.filter (fun e => cmp e.1 startKey != .lt) := by
  induction entries with
  | nil => rfl
  | cons e rest ih =>
    obtain ⟨he, hrest⟩ := SortedDict.sorted_cons.mp hs
    have hsplit := SortedDict.filter_append_cons (l := []) (k := startKey) (by simp) he (· != .lt)
    rw [List.nil_append] at hsplit
    rw [hsplit, findInsertPosition]
    cases hk : cmp startKey e.1 with
    | lt => simp [Std.OrientedCmp.gt_of_lt hk]
    | eq => simp [Std.OrientedCmp.eq_symm hk]
    | gt =>
      rw [if_pos (Std.OrientedCmp.gt_iff_lt.mp hk), findInsertPosition_add, Nat.add_comm,
        List.drop_succ_cons, ih hrest]
      simp

/-- Whether the position of a key is that of an entry at it. -/
def atKey (cmp : κ → κ → Ordering) (startKey : κ) (entries : List (κ × ν)) : Bool :=
  entries[findInsertPosition cmp startKey entries 0]?.any (fun e => cmp e.1 startKey == .eq)

/-- Up to the position of a key, and at it when there is an entry at the key, stand the entries
that are not after it. -/
theorem take_findInsertPosition (hs : SortedDict.Sorted cmp entries) :
    entries.take (findInsertPosition cmp startKey entries 0 +
        if atKey cmp startKey entries then 1 else 0) =
      entries.filter (fun e => cmp e.1 startKey != .gt) := by
  induction entries with
  | nil => simp
  | cons e rest ih =>
    obtain ⟨he, hrest⟩ := SortedDict.sorted_cons.mp hs
    have hsplit := SortedDict.filter_append_cons (l := []) (k := startKey) (by simp) he (· != .gt)
    rw [List.nil_append] at hsplit
    rw [hsplit, atKey, findInsertPosition]
    -- the position counts the keys that are smaller
    cases hk : cmp startKey e.1 with
    | lt => simp [Std.OrientedCmp.gt_of_lt hk]
    | eq => simp [Std.OrientedCmp.eq_symm hk]
    | gt =>
      rw [if_pos (Std.OrientedCmp.gt_iff_lt.mp hk), findInsertPosition_add, Nat.add_comm 1,
        List.getElem?_cons_succ, Nat.add_right_comm, List.take_succ_cons]
      rw [atKey] at ih
      simp [← ih hrest]

omit [Std.TransCmp cmp] in
/-- The position of a key, and the one after it when there is an entry at the key, are in range. -/
theorem findInsertPosition_le :
    findInsertPosition cmp startKey entries 0 + (if atKey cmp startKey entries then 1 else 0) ≤
      entries.length := by
  induction entries with
  | nil => simp [atKey, findInsertPosition]
  | cons e rest ih =>
    rw [atKey, findInsertPosition]
    split
    · rw [findInsertPosition_add, Nat.add_comm 1, List.getElem?_cons_succ, List.length_cons]
      rw [atKey] at ih
      omega
    · split <;> simp

end Positions

/-- The enumerators of a sorted dictionary. -/
inductive KeyEnumerator (κ ν : Type) : Type where
  | array (e : ArrayEnumerator κ)
  | tree (e : TreeEnumerator κ ν)

/-- `nextObject`. -/
def KeyEnumerator.nextObject : KeyEnumerator κ ν → Option κ × KeyEnumerator κ ν
  | array e => (e.nextObject.1, array e.nextObject.2)
  | tree e => (e.nextObject.1, tree e.nextObject.2)

namespace FImmutableSortedDictionary

variable {cmp : κ → κ → Ordering}

/-- `keyEnumerator`. -/
def keyEnumerator : FImmutableSortedDictionary cmp ν → KeyEnumerator κ ν
  | array d => .array { keys := d.entries.map Prod.fst, pos := 0, reverse := false }
  | tree d => .tree (.init d none false)

/-- `keyEnumeratorFrom:`. -/
def keyEnumeratorFrom (d : FImmutableSortedDictionary cmp ν) (startKey : κ) :
    KeyEnumerator κ ν :=
  match d with
  | array d =>
    .array
      { keys := d.entries.map Prod.fst
        pos := findInsertPosition cmp startKey d.entries 0
        reverse := false }
  | tree d => .tree (.init d (some startKey) false)

/-- `reverseKeyEnumerator`. -/
def reverseKeyEnumerator : FImmutableSortedDictionary cmp ν → KeyEnumerator κ ν
  | array d =>
    .array { keys := d.entries.map Prod.fst, pos := (d.entries.length : ℤ) - 1, reverse := true }
  | tree d => .tree (.init d none true)

/-- `reverseKeyEnumeratorFrom:`. -/
def reverseKeyEnumeratorFrom (d : FImmutableSortedDictionary cmp ν) (startKey : κ) :
    KeyEnumerator κ ν :=
  match d with
  | array d =>
    let startPos : ℕ := findInsertPosition cmp startKey d.entries 0
    .array
      { keys := d.entries.map Prod.fst
        -- without an exact match the position is that after the closest one
        pos := if atKey cmp startKey d.entries then (startPos : ℤ) else startPos - 1
        reverse := true }
  | tree d => .tree (.init d (some startKey) true)

/-- The calls of an enumerator of a dictionary are those of the one of its representation. -/
theorem call_array (e : ArrayEnumerator κ) (i : ℕ) :
    call KeyEnumerator.nextObject i (.array e : KeyEnumerator κ ν) = e.pending[i]? := by
  have hrep : ∀ i (e : ArrayEnumerator κ),
      call KeyEnumerator.nextObject i (.array e : KeyEnumerator κ ν) =
        call ArrayEnumerator.nextObject i e := by
    intro i
    induction i with
    | zero => exact fun _ => rfl
    | succ i ih => exact fun e => ih _
  rw [hrep]
  exact call_eq_getElem? (fun e (_ : True) => e.nextObject_eq.1)
    (fun e _ => e.nextObject_eq.2) (fun _ _ => trivial) i trivial

theorem call_tree {e : TreeEnumerator κ ν} (h : TreeEnumerator.Valid e.stack) (i : ℕ) :
    call KeyEnumerator.nextObject i (.tree e) =
      (TreeEnumerator.pending e.isReverse e.stack)[i]? := by
  have hrep : ∀ i (e : TreeEnumerator κ ν),
      call KeyEnumerator.nextObject i (.tree e) = call TreeEnumerator.nextObject i e := by
    intro i
    induction i with
    | zero => exact fun _ => rfl
    | succ i ih => exact fun e => ih _
  rw [hrep, TreeEnumerator.call_eq h]

variable [Std.TransCmp cmp]

/-- From a key on, the enumerator of either representation gives the keys that are not before
it, in ascending order. -/
theorem call_keyEnumeratorFrom (d : FImmutableSortedDictionary cmp ν) (startKey : κ) (i : ℕ) :
    call KeyEnumerator.nextObject i (d.keyEnumeratorFrom startKey) =
      ((d.entries.filter (fun e => cmp e.1 startKey != .lt)).map Prod.fst)[i]? := by
  cases d with
  | array d =>
    rw [keyEnumeratorFrom, call_array, ArrayEnumerator.pending_forward, ← List.map_drop,
      drop_findInsertPosition d.sorted, entries]
  | tree d =>
    rw [keyEnumeratorFrom, call_tree (TreeEnumerator.valid_init d _ _)]
    simp only [TreeEnumerator.init, TreeEnumerator.pending_initStack_forward startKey d.sorted]
    simp [TreeEnumerator.pending, entries, FTreeSortedDictionary.entries]

/-- From a key on, the reverse enumerator of either representation gives the keys that are not
after it, in descending order. -/
theorem call_reverseKeyEnumeratorFrom (d : FImmutableSortedDictionary cmp ν) (startKey : κ)
    (i : ℕ) :
    call KeyEnumerator.nextObject i (d.reverseKeyEnumeratorFrom startKey) =
      ((d.entries.filter (fun e => cmp e.1 startKey != .gt)).map Prod.fst).reverse[i]? := by
  cases d with
  | array d =>
    -- where the key is not there, the enumeration starts one position earlier
    have hpos : (if atKey cmp startKey d.entries then
          (findInsertPosition cmp startKey d.entries 0 : ℤ)
        else findInsertPosition cmp startKey d.entries 0 - 1) =
        ((findInsertPosition cmp startKey d.entries 0 +
          if atKey cmp startKey d.entries then 1 else 0 : ℕ) : ℤ) - 1 := by
      split <;> simp
    rw [reverseKeyEnumeratorFrom, call_array, hpos,
      ArrayEnumerator.pending_reverse (by simpa using findInsertPosition_le), ← List.map_take,
      take_findInsertPosition d.sorted, entries]
  | tree d =>
    rw [reverseKeyEnumeratorFrom, call_tree (TreeEnumerator.valid_init d _ _)]
    simp only [TreeEnumerator.init, TreeEnumerator.pending_initStack_reverse startKey d.sorted]
    simp [TreeEnumerator.pending, entries, FTreeSortedDictionary.entries]

/-- From a key on, the enumerators of either representation give the keys that are not before it
in ascending order, and those that are not after it in descending order, and then nothing. -/
theorem call_enumeratorsFrom (d : FImmutableSortedDictionary cmp ν) (startKey : κ) (i : ℕ) :
    call KeyEnumerator.nextObject i (d.keyEnumeratorFrom startKey) =
        ((d.entries.filter (fun e => cmp e.1 startKey != .lt)).map Prod.fst)[i]? ∧
      call KeyEnumerator.nextObject i (d.reverseKeyEnumeratorFrom startKey) =
        ((d.entries.filter (fun e => cmp e.1 startKey != .gt)).map Prod.fst).reverse[i]? :=
  ⟨call_keyEnumeratorFrom d startKey i, call_reverseKeyEnumeratorFrom d startKey i⟩

/-- A key between two keys of a tree is where both enumerators start. -/
theorem call_enumeratorsFrom_between :
    let d : FImmutableSortedDictionary (compare : ℕ → ℕ → Ordering) Char :=
      tree (.insertKey (.insertKey .empty 2 'b') 5 'e')
    call KeyEnumerator.nextObject 0 (d.keyEnumeratorFrom 3) = some 5 ∧
      call KeyEnumerator.nextObject 0 (d.reverseKeyEnumeratorFrom 3) = some 2 := by
  refine ⟨(call_enumeratorsFrom _ 3 0).1.trans ?_, (call_enumeratorsFrom _ 3 0).2.trans ?_⟩
  · decide
  · decide

omit [Std.TransCmp cmp]

/-- Without a key to start at, the enumerator of either representation gives all keys. -/
theorem call_keyEnumerator (d : FImmutableSortedDictionary cmp ν) (i : ℕ) :
    call KeyEnumerator.nextObject i d.keyEnumerator = (d.entries.map Prod.fst)[i]? := by
  cases d with
  | array d =>
    rw [keyEnumerator, call_array]
    exact congrArg (·[i]?) (ArrayEnumerator.pending_forward (d.entries.map Prod.fst) 0)
  | tree d =>
    rw [keyEnumerator, call_tree (TreeEnumerator.valid_init d _ _)]
    simp [TreeEnumerator.init, TreeEnumerator.pending_initStack_none, TreeEnumerator.pending,
      entries, FTreeSortedDictionary.entries, keys]

/-- Without a key to start at, the reverse enumerator of the arrays gives all keys from the last
to the first, and that of a tree gives none: its comparison is flipped although there is nothing
to compare with. -/
theorem call_reverseKeyEnumerator (d : FImmutableSortedDictionary cmp ν) (i : ℕ) :
    call KeyEnumerator.nextObject i d.reverseKeyEnumerator =
      match d with
      | array d => (d.entries.map Prod.fst).reverse[i]?
      | tree _ => none := by
  cases d with
  | array d =>
    rw [reverseKeyEnumerator, call_array, ArrayEnumerator.pending_reverse (by simp),
      ← List.map_take, List.take_length]
  | tree d =>
    rw [reverseKeyEnumerator, call_tree (TreeEnumerator.valid_init d _ _)]
    simp [TreeEnumerator.init, TreeEnumerator.pending_initStack_none, TreeEnumerator.pending]

/-- Without a key to start at, the enumerators of the arrays give all keys in either order, and
of those of a tree only the one in ascending order does. -/
theorem call_enumerators (d : FImmutableSortedDictionary cmp ν) (i : ℕ) :
    call KeyEnumerator.nextObject i d.keyEnumerator = (d.entries.map Prod.fst)[i]? ∧
      call KeyEnumerator.nextObject i d.reverseKeyEnumerator =
        match d with
        | array d => (d.entries.map Prod.fst).reverse[i]?
        | tree _ => none :=
  ⟨call_keyEnumerator d i, call_reverseKeyEnumerator d i⟩

end FImmutableSortedDictionary

end LearnCode.FirebaseDatabase
