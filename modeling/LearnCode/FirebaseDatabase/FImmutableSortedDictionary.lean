import LearnCode.FirebaseDatabase.FTreeSortedDictionary
import Mathlib.Data.List.InsertIdx
import Mathlib.Logic.Function.Basic

/-!
# Sorted dictionaries

`FImmutableSortedDictionary`: a small dictionary is a pair of sorted arrays, and an insertion
into one that has reached the threshold builds a tree.

## Main definitions

* `FArraySortedDictionary cmp ν`: the keys and the values at the same indices, with ascending
  keys;
* `FImmutableSortedDictionary cmp ν`: one of the two representations;
* `insertKey`, `removeKey`, `get`, `getPredecessorKey`: the operations, on either;
* `Operation`, `run`: operations one after the other.

## Main results

* `run_eq_some_get`: no run of operations raises an exception, and each leaves a dictionary that
  answers like the map of the insertions and removals;
* `getPredecessorKey_eq_map_get`: the key before a key is that of the list of entries, in both
  representations;
* `isEqual_eq_true_iff_entries`: two dictionaries are equal when their entries are.
-/

namespace LearnCode.FirebaseDatabase

variable {κ ν : Type}

/-- `SORTED_DICTIONARY_ARRAY_TO_RB_TREE_SIZE_THRESHOLD`. -/
def arrayToTreeSizeThreshold : ℕ := 25

/-- `FArraySortedDictionary`. -/
structure FArraySortedDictionary (cmp : κ → κ → Ordering) (ν : Type) where
  /-- `keys` and `values`, index by index. -/
  entries : List (κ × ν)
  /-- The keys ascend. -/
  sorted : SortedDict.Sorted cmp entries
  /-- The entries, and one more, are counted by an `int`. -/
  counted : entries.length + 1 < 2 ^ 31

/-- `FImmutableSortedDictionary`: one of its two subclasses. -/
inductive FImmutableSortedDictionary (cmp : κ → κ → Ordering) (ν : Type) : Type where
  | array (d : FArraySortedDictionary cmp ν)
  | tree (d : FTreeSortedDictionary cmp ν)

/-! ## Positions in an array -/

section Positions

variable (cmp : κ → κ → Ordering) (key : κ)

/-- The loop of `findInsertPositionForKey:`, from the index `pos` on. -/
def findInsertPosition : List (κ × ν) → (pos : ℕ) → ℕ
  | [], pos => pos
  | e :: rest, pos =>
    if cmp e.1 key = .lt then findInsertPosition rest (pos + 1) else pos

/-- The loop of `findKey:`, from the index `pos` on; `none` is `NSNotFound`. -/
def findKey : List (κ × ν) → (pos : ℕ) → Option ℕ
  | [], _ => none
  | e :: rest, pos =>
    match cmp key e.1 with
    | .eq => some pos
    | .lt => none
    | .gt => findKey rest (pos + 1)

variable {cmp key}

/-- The loop counts from where it starts. -/
theorem findInsertPosition_add (entries : List (κ × ν)) (pos : ℕ) :
    findInsertPosition cmp key entries pos = pos + findInsertPosition cmp key entries 0 := by
  induction entries generalizing pos with
  | nil => rfl
  | cons e rest ih =>
    simp only [findInsertPosition]
    split
    · rw [ih (pos + 1), ih (0 + 1)]; omega
    · rfl

theorem findKey_add (entries : List (κ × ν)) (pos : ℕ) :
    findKey cmp key entries pos = (findKey cmp key entries 0).map (pos + ·) := by
  induction entries generalizing pos with
  | nil => rfl
  | cons e rest ih =>
    simp only [findKey]
    cases cmp key e.1 with
    | lt => rfl
    | eq => rfl
    | gt =>
      simp only [ih (pos + 1), ih (0 + 1), Option.map_map]
      congr 1
      funext i
      simp only [Function.comp_apply]
      omega

/-- The search for a key that is found splits the entries at it. -/
theorem exists_split_of_findKey {entries : List (κ × ν)} {pos : ℕ}
    (h : findKey cmp key entries 0 = some pos) :
    ∃ l e r, entries = l ++ e :: r ∧ l.length = pos ∧ cmp key e.1 = .eq := by
  induction entries generalizing pos with
  | nil => cases h
  | cons e rest ih =>
    simp only [findKey] at h
    cases hk : cmp key e.1 with
    | lt => rw [hk] at h; cases h
    | eq =>
      rw [hk] at h
      exact ⟨[], e, rest, rfl, by simpa using h, hk⟩
    | gt =>
      simp only [hk] at h
      rw [findKey_add, Option.map_eq_some_iff] at h
      obtain ⟨i, hi, rfl⟩ := h
      obtain ⟨l, e', r, rfl, rfl, heq⟩ := ih hi
      exact ⟨e :: l, e', r, rfl, by simp; omega, heq⟩

/-- A key that is not found has no value. -/
theorem findKey_eq_none_iff [Std.TransCmp cmp] {entries : List (κ × ν)}
    (hs : SortedDict.Sorted cmp entries) :
    findKey cmp key entries 0 = none ↔ SortedDict.get cmp key entries = none := by
  constructor
  · intro h
    induction entries with
    | nil => rfl
    | cons e rest ih =>
      obtain ⟨he, hrest⟩ := SortedDict.sorted_cons.mp hs
      simp only [findKey] at h
      rw [SortedDict.get_cons]
      cases hk : cmp key e.1 with
      | lt =>
        -- the search stops at the first greater key
        rw [if_neg (by simp)]
        refine SortedDict.get_eq_none_iff.mpr fun a ha heq => ?_
        rw [Std.TransCmp.lt_trans hk (he a ha)] at heq
        cases heq
      | eq => rw [hk] at h; cases h
      | gt =>
        rw [hk, findKey_add, Option.map_eq_none_iff] at h
        rw [if_neg (by simp)]
        exact ih hrest h
  · intro h
    cases hfind : findKey cmp key entries 0 with
    | none => rfl
    | some pos =>
      obtain ⟨l, e, r, rfl, -, heq⟩ := exists_split_of_findKey hfind
      exact absurd heq (SortedDict.get_eq_none_iff.mp h e (by simp))

/-- Putting a value at a key that is found is an insertion. -/
theorem set_findKey {entries : List (κ × ν)} [Std.TransCmp cmp]
    (hs : SortedDict.Sorted cmp entries) {pos : ℕ} (h : findKey cmp key entries 0 = some pos)
    (v : ν) : entries.set pos (key, v) = SortedDict.insert cmp key v entries := by
  obtain ⟨l, e, r, rfl, rfl, heq⟩ := exists_split_of_findKey h
  obtain ⟨-, -, hle, -⟩ := SortedDict.sorted_append_cons_iff.mp hs
  rw [SortedDict.insert_append_of_eq hle heq]
  simp

/-- Taking out the entry of a key that is found is a removal. -/
theorem eraseIdx_findKey {entries : List (κ × ν)} [Std.TransCmp cmp]
    (hs : SortedDict.Sorted cmp entries) {pos : ℕ} (h : findKey cmp key entries 0 = some pos) :
    entries.eraseIdx pos = SortedDict.remove cmp key entries := by
  obtain ⟨l, e, r, rfl, rfl, heq⟩ := exists_split_of_findKey h
  obtain ⟨-, -, hle, her⟩ := SortedDict.sorted_append_cons_iff.mp hs
  rw [SortedDict.remove_append_of_eq hle her heq, List.eraseIdx_append_of_length_le le_rfl]
  simp

/-- The value at the index of a key is the value at the key. -/
theorem getElem?_findKey {entries : List (κ × ν)} [Std.TransCmp cmp]
    (hs : SortedDict.Sorted cmp entries) :
    ((findKey cmp key entries 0).bind fun pos => entries[pos]?.map Prod.snd) =
      SortedDict.get cmp key entries := by
  cases h : findKey cmp key entries 0 with
  | none => exact ((findKey_eq_none_iff hs).mp h).symm
  | some pos =>
    obtain ⟨l, e, r, rfl, rfl, heq⟩ := exists_split_of_findKey h
    obtain ⟨-, -, hle, her⟩ := SortedDict.sorted_append_cons_iff.mp hs
    rw [SortedDict.get_append_cons hle her, heq]
    simp

/-- Putting a new key at its position is an insertion. -/
theorem insertIdx_findInsertPosition {entries : List (κ × ν)} [Std.OrientedCmp cmp]
    (h : SortedDict.get cmp key entries = none) (v : ν) :
    entries.insertIdx (findInsertPosition cmp key entries 0) (key, v) =
      SortedDict.insert cmp key v entries := by
  induction entries with
  | nil => rfl
  | cons e rest ih =>
    rw [SortedDict.get_cons] at h
    split at h
    · cases h
    · rename_i hne
      simp only [findInsertPosition, SortedDict.insert]
      cases hk : cmp key e.1 with
      | lt =>
        -- the search stops at the first greater key
        rw [if_neg (by simp [Std.OrientedCmp.gt_of_lt hk])]
        rfl
      | eq => exact absurd hk hne
      | gt =>
        rw [if_pos (Std.OrientedCmp.gt_iff_lt.mp hk), findInsertPosition_add, Nat.add_comm,
          List.insertIdx_succ_cons, ih h]

end Positions

/-! ## Arrays -/

namespace FArraySortedDictionary

variable {cmp : κ → κ → Ordering}

/-- `initWithComparator:`. -/
def empty : FArraySortedDictionary cmp ν :=
  { entries := [], sorted := SortedDict.sorted_nil, counted := by simp }

/-- `get:`. -/
def get (d : FArraySortedDictionary cmp ν) (key : κ) : Option ν :=
  (findKey cmp key d.entries 0).bind fun pos => d.entries[pos]?.map Prod.snd

/-- `contains:`. -/
def contains (d : FArraySortedDictionary cmp ν) (key : κ) : Bool :=
  (findKey cmp key d.entries 0).isSome

/-- `getPredecessorKey:`; `none` is the exception that is raised for a key that is not there. -/
def getPredecessorKey (d : FArraySortedDictionary cmp ν) (key : κ) : Option (Option κ) :=
  match findKey cmp key d.entries 0 with
  | none => none
  | some 0 => some none
  | some (pos + 1) => some (d.entries[pos]?.map Prod.fst)

/-- The entries and a new one are few enough for a tree to be built of them. -/
theorem length_append_lt (d : FArraySortedDictionary cmp ν) (e : κ × ν) :
    (d.entries ++ [e]).length + 1 < 2 ^ 32 := by
  have hcounted := d.counted
  rw [List.length_append, List.length_singleton]
  omega

variable [Std.TransCmp cmp]

/-- `fromDictionary:withComparator:`, for a dictionary whose keys, and one more, are counted by an
`int`. -/
def fromDictionary (dictionary : List (κ × ν)) (h : dictionary.length + 1 < 2 ^ 31) :
    Option (FArraySortedDictionary cmp ν) :=
  match hsorted : sortedKeyList cmp dictionary with
  | none => none
  | some entries =>
    some
      { entries
        sorted := (sorted_of_sortedKeyList hsorted).1
        counted := length_of_sortedKeyList hsorted ▸ h }

/-- `insertKey:withValue:`; `none` is an exception. -/
def insertKey (d : FArraySortedDictionary cmp ν) (key : κ) (value : ν) :
    Option (FImmutableSortedDictionary cmp ν) :=
  match hpos : findKey cmp key d.entries 0 with
  | none =>
    if hlength : d.entries.length ≥ arrayToTreeSizeThreshold then
      (FTreeSortedDictionary.fromDictionary (d.entries ++ [(key, value)])
        (d.length_append_lt (key, value))).map .tree
    else
      some (.array
        { entries := d.entries.insertIdx (findInsertPosition cmp key d.entries 0) (key, value)
          sorted := by
            rw [insertIdx_findInsertPosition ((findKey_eq_none_iff d.sorted).mp hpos)]
            exact d.sorted.insert key value
          counted := by
            have hle := List.length_insertIdx_le_succ (l := d.entries) (x := (key, value))
              (i := findInsertPosition cmp key d.entries 0)
            simp only [arrayToTreeSizeThreshold] at hlength
            omega })
  | some pos =>
    some (.array
      { entries := d.entries.set pos (key, value)
        sorted := by
          rw [set_findKey d.sorted hpos]
          exact d.sorted.insert key value
        counted := by
          rw [List.length_set]
          exact d.counted })

/-- `removeKey:`. -/
def removeKey (d : FArraySortedDictionary cmp ν) (key : κ) : FArraySortedDictionary cmp ν :=
  match hpos : findKey cmp key d.entries 0 with
  | none => d
  | some pos =>
    { entries := d.entries.eraseIdx pos
      sorted := by
        rw [eraseIdx_findKey d.sorted hpos]
        exact d.sorted.remove key
      counted := by
        have hle := List.length_eraseIdx_le d.entries pos
        have hcounted := d.counted
        omega }

end FArraySortedDictionary

/-! ## Either representation -/

namespace FImmutableSortedDictionary

variable {cmp : κ → κ → Ordering}

/-- The entries in the order of their keys. -/
def entries : FImmutableSortedDictionary cmp ν → List (κ × ν)
  | array d => d.entries
  | tree d => d.entries

/-- `dictionaryWithComparator:`. -/
def empty : FImmutableSortedDictionary cmp ν := array .empty

/-- `get:`. -/
def get (d : FImmutableSortedDictionary cmp ν) (key : κ) : Option ν :=
  match d with
  | array d => d.get key
  | tree d => d.get key

/-- `contains:`. -/
def contains (d : FImmutableSortedDictionary cmp ν) (key : κ) : Bool :=
  match d with
  | array d => d.contains key
  | tree d => d.contains key

/-- `count`, an `int`. -/
def count : FImmutableSortedDictionary cmp ν → ℤ
  | array d => CInt.wrap d.entries.length
  | tree d => d.count

/-- `getPredecessorKey:`; `none` is the exception that is raised for a key that is not there. -/
def getPredecessorKey (d : FImmutableSortedDictionary cmp ν) (key : κ) : Option (Option κ) :=
  match d with
  | array d => d.getPredecessorKey key
  | tree d => d.getPredecessorKey key

/-- `isEqual:`. -/
def isEqual [DecidableEq ν] (d other : FImmutableSortedDictionary cmp ν) : Bool :=
  if d.count ≠ other.count then false
  else d.entries.all fun e => other.get e.1 = some e.2

/-- The keys of a dictionary ascend. -/
theorem sorted (d : FImmutableSortedDictionary cmp ν) : SortedDict.Sorted cmp d.entries := by
  cases d with
  | array d => exact d.sorted
  | tree d => exact d.sorted

/-- `count` is the number of entries, wrapped. -/
theorem count_eq (d : FImmutableSortedDictionary cmp ν) :
    d.count = CInt.wrap d.entries.length := by
  cases d with
  | array d => rfl
  | tree d => exact FLLRBNode.count_eq d.root

section Reads

variable [Std.TransCmp cmp]

/-- A read is one in the list of entries. -/
theorem get_eq (d : FImmutableSortedDictionary cmp ν) (key : κ) :
    d.get key = SortedDict.get cmp key d.entries := by
  cases d with
  | array d => exact getElem?_findKey d.sorted
  | tree d => exact d.get_eq key

/-- A key is contained when it has a value. -/
theorem contains_eq (d : FImmutableSortedDictionary cmp ν) (key : κ) :
    d.contains key = (SortedDict.get cmp key d.entries).isSome := by
  cases d with
  | array d =>
    rw [contains, FArraySortedDictionary.contains, entries, ← getElem?_findKey d.sorted]
    cases h : findKey cmp key d.entries 0 with
    | none => rfl
    | some pos =>
      obtain ⟨l, e, r, hsplit, rfl, -⟩ := exists_split_of_findKey h
      simp [hsplit]
  | tree d =>
    rw [contains, FTreeSortedDictionary.contains, d.get_eq, entries]

/-- The key before a key that is there is the last of the smaller keys, and one that is not
there raises an exception. -/
theorem getPredecessorKey_eq_map_get (d : FImmutableSortedDictionary cmp ν) (key : κ) :
    d.getPredecessorKey key =
      (SortedDict.get cmp key d.entries).map fun _ =>
        (d.entries.filter (fun e => cmp e.1 key == .lt)).getLast?.map Prod.fst := by
  cases d with
  | array d =>
    rw [getPredecessorKey, FArraySortedDictionary.getPredecessorKey, entries,
      ← getElem?_findKey d.sorted]
    cases h : findKey cmp key d.entries 0 with
    | none => rfl
    | some pos =>
      obtain ⟨l, e, r, hsplit, hlen, heq⟩ := exists_split_of_findKey h
      have hs := d.sorted
      rw [hsplit] at hs
      obtain ⟨-, -, hle, her⟩ := SortedDict.sorted_append_cons_iff.mp hs
      rw [hsplit, SortedDict.filter_append_cons hle her (· == .lt), heq, ← hlen]
      -- the index before that of the key is that of the last smaller one
      cases l using List.reverseRecOn with
      | nil => simp
      | append_singleton l a _ => simp
  | tree d =>
    rw [getPredecessorKey, FTreeSortedDictionary.getPredecessorKey,
      FLLRBNode.getPredecessorKey_eq key d.sorted]
    simp [entries, FTreeSortedDictionary.entries]

/-- The key before a key of an array, and one that is not there. -/
theorem getPredecessorKey_eq_map_get_pair :
    let d : FImmutableSortedDictionary (compare : ℕ → ℕ → Ordering) Char :=
      array { entries := [(2, 'b'), (5, 'e')], sorted := by decide, counted := by decide }
    d.getPredecessorKey 5 = some (some 2) ∧ d.getPredecessorKey 3 = none := by
  refine ⟨(getPredecessorKey_eq_map_get _ 5).trans ?_,
    (getPredecessorKey_eq_map_get _ 3).trans ?_⟩
  · decide
  · decide

end Reads

section Operations

variable [Std.TransCmp cmp] [Std.LawfulEqCmp cmp]

omit [Std.LawfulEqCmp cmp] in
/-- `fromDictionary:withComparator:`, for a dictionary whose keys, and one more, are counted by an
`unsigned int`. -/
def fromDictionary (dictionary : List (κ × ν)) (h : dictionary.length + 1 < 2 ^ 32) :
    Option (FImmutableSortedDictionary cmp ν) :=
  if hcount : dictionary.length ≤ arrayToTreeSizeThreshold then
    (FArraySortedDictionary.fromDictionary dictionary
      (by simp only [arrayToTreeSizeThreshold] at hcount; omega)).map array
  else (FTreeSortedDictionary.fromDictionary dictionary h).map tree

omit [Std.LawfulEqCmp cmp] in
/-- Either representation is built from what is sorted. -/
theorem entries_fromDictionary (dictionary : List (κ × ν)) (h : dictionary.length + 1 < 2 ^ 32) :
    (fromDictionary dictionary h : Option (FImmutableSortedDictionary cmp ν)).map entries =
      sortedKeyList cmp dictionary := by
  unfold fromDictionary
  split
  · rw [Option.map_map, FArraySortedDictionary.fromDictionary]
    split
    · rename_i hsorted
      exact hsorted.symm
    · rename_i keys hsorted
      exact hsorted.symm
  · rw [Option.map_map, ← FTreeSortedDictionary.entries_fromDictionary dictionary h]
    rfl

/-- `insertKey:withValue:`; `none` is an exception. -/
def insertKey (d : FImmutableSortedDictionary cmp ν) (key : κ) (value : ν) :
    Option (FImmutableSortedDictionary cmp ν) :=
  match d with
  | array d => d.insertKey key value
  | tree d => some (tree (d.insertKey key value))

/-- `removeKey:`. -/
def removeKey (d : FImmutableSortedDictionary cmp ν) (key : κ) :
    FImmutableSortedDictionary cmp ν :=
  match d with
  | array d => array (d.removeKey key)
  | tree d => tree (d.removeKey key)

omit [Std.LawfulEqCmp cmp] in
/-- No two keys of a sorted list and a key that it does not have are in the same place. -/
theorem pairwise_ne_append {entries : List (κ × ν)} {key : κ}
    (hs : SortedDict.Sorted cmp entries) (hnone : SortedDict.get cmp key entries = none)
    (value : ν) : (entries ++ [(key, value)]).Pairwise (fun a b => cmp a.1 b.1 ≠ .eq) := by
  refine List.pairwise_append.mpr ⟨hs.imp fun hlt heq => ?_, List.pairwise_singleton _ _, ?_⟩
  · rw [hlt] at heq; cases heq
  · intro a ha b hb heq
    rw [List.mem_singleton.mp hb] at heq
    exact SortedDict.get_eq_none_iff.mp hnone a ha (Std.OrientedCmp.eq_symm heq)

/-- An insertion raises no exception, and is one in the list of entries, also where it turns the
arrays into a tree. -/
theorem insertKey_eq_some (d : FImmutableSortedDictionary cmp ν) (key : κ) (value : ν) :
    ∃ d', d.insertKey key value = some d' ∧
      d'.entries = SortedDict.insert cmp key value d.entries := by
  cases d with
  | tree d => exact ⟨_, rfl, d.entries_insertKey key value⟩
  | array d =>
    simp only [insertKey, FArraySortedDictionary.insertKey]
    split
    · rename_i hpos
      have hnone := (findKey_eq_none_iff d.sorted).mp hpos
      split
      · -- the keys of the arrays and the new one are distinct, and so the tree is built
        obtain ⟨keys, hkeys⟩ := Option.isSome_iff_exists.mp (isSome_sortedKeyList_iff.mpr
          (pairwise_ne_append d.sorted hnone value))
        have htree :=
          @FTreeSortedDictionary.entries_fromDictionary _ _ cmp _ (d.entries ++ [(key, value)])
            (d.length_append_lt (key, value))
        rw [hkeys, Option.map_eq_some_iff] at htree
        obtain ⟨t, ht, hentries⟩ := htree
        refine ⟨tree t, by rw [ht]; rfl, ?_⟩
        obtain ⟨hsorted, hperm⟩ := sorted_of_sortedKeyList hkeys
        have hinsert := SortedDict.insert_perm hnone value
        calc t.entries = keys := hentries
          _ = SortedDict.insert cmp key value d.entries :=
            hsorted.eq_of_perm (d.sorted.insert key value)
              (hperm.trans (List.perm_append_comm.trans hinsert.symm))
      · exact ⟨_, rfl, insertIdx_findInsertPosition hnone value⟩
    · rename_i pos hpos
      exact ⟨_, rfl, set_findKey d.sorted hpos value⟩

omit [Std.LawfulEqCmp cmp] in
/-- A removal is one in the list of entries. -/
theorem entries_removeKey (d : FImmutableSortedDictionary cmp ν) (key : κ) :
    (d.removeKey key).entries = SortedDict.remove cmp key d.entries := by
  cases d with
  | tree d => exact d.entries_removeKey key
  | array d =>
    simp only [removeKey, FArraySortedDictionary.removeKey, entries]
    split
    · rename_i hpos
      exact (SortedDict.remove_eq_self_of_forall_ne
        (SortedDict.get_eq_none_iff.mp ((findKey_eq_none_iff d.sorted).mp hpos))).symm
    · rename_i pos hpos
      exact eraseIdx_findKey d.sorted hpos

omit [Std.LawfulEqCmp cmp] in
/-- An entry of a dictionary is the value at its key. -/
theorem get_of_mem (d : FImmutableSortedDictionary cmp ν) {e : κ × ν} (he : e ∈ d.entries) :
    d.get e.1 = some e.2 := by
  rw [get_eq, SortedDict.get_of_mem d.sorted he]

/-- Two dictionaries are equal when their entries are, whatever their representations. -/
theorem isEqual_eq_true_iff_entries [DecidableEq ν] {d other : FImmutableSortedDictionary cmp ν}
    (hother : other.entries.length < 2 ^ 32) :
    d.isEqual other = true ↔ d.entries = other.entries := by
  constructor
  · intro h
    unfold isEqual at h
    split at h
    · cases h
    · rename_i hcount
      have hsub : d.entries ⊆ other.entries := by
        intro e he
        have hget : other.get e.1 = some e.2 := by simpa using List.all_eq_true.mp h e he
        rw [get_eq] at hget
        obtain ⟨e', he', hkey, hvalue⟩ := SortedDict.exists_mem_of_get_eq_some hget
        rwa [Prod.ext (Std.LawfulEqCmp.eq_of_compare hkey) hvalue.symm]
      have hsubperm : d.entries.Subperm other.entries := List.subperm_of_subset d.sorted.nodup hsub
      -- the counts are equal before they are wrapped, as one is within the other
      rw [not_ne_iff, count_eq, count_eq,
        CInt.wrap_natCast_inj (hsubperm.length_le.trans_lt hother) hother] at hcount
      exact d.sorted.eq_of_perm other.sorted (hsubperm.perm_of_length_le hcount.ge)
  · intro h
    unfold isEqual
    rw [if_neg (by simp [count_eq, h])]
    refine List.all_eq_true.mpr fun e he => ?_
    simpa using other.get_of_mem (h ▸ he)

/-- An array and a tree with the same three entries, put in in different orders, are equal. -/
theorem isEqual_eq_true_iff_entries_three :
    let d : FImmutableSortedDictionary (compare : ℕ → ℕ → Ordering) Char :=
      array { entries := [(2, 'b'), (5, 'e'), (7, 'g')], sorted := by decide, counted := by decide }
    d.isEqual (tree (((FTreeSortedDictionary.empty.insertKey 7 'g').insertKey 2 'b').insertKey
      5 'e')) = true :=
  (isEqual_eq_true_iff_entries (by decide)).mpr (by decide)

end Operations

/-! ## Runs -/

/-- An operation on a dictionary. -/
inductive Operation (κ ν : Type) : Type where
  | insertKey (key : κ) (value : ν)
  | removeKey (key : κ)

/-- What an operation does to a map. -/
def Operation.update [DecidableEq κ] (m : κ → Option ν) : Operation κ ν → κ → Option ν
  | insertKey key value => Function.update m key (some value)
  | removeKey key => Function.update m key none

section Runs

variable [Std.TransCmp cmp] [Std.LawfulEqCmp cmp]

/-- Carry out an operation. -/
def perform (d : FImmutableSortedDictionary cmp ν) :
    Operation κ ν → Option (FImmutableSortedDictionary cmp ν)
  | .insertKey key value => d.insertKey key value
  | .removeKey key => some (d.removeKey key)

/-- Operations one after the other. -/
def run (d : FImmutableSortedDictionary cmp ν) (operations : List (Operation κ ν)) :
    Option (FImmutableSortedDictionary cmp ν) :=
  operations.foldlM perform d

variable [DecidableEq κ]

/-- An operation raises no exception, and the dictionary answers like the map after it. -/
theorem perform_eq_some (d : FImmutableSortedDictionary cmp ν) (operation : Operation κ ν) :
    ∃ d', d.perform operation = some d' ∧ d'.get = operation.update d.get := by
  cases operation with
  | insertKey key value =>
    obtain ⟨d', hd', hentries⟩ := d.insertKey_eq_some key value
    refine ⟨d', hd', funext fun j => ?_⟩
    rw [get_eq, hentries, SortedDict.get_insert_of_lawful, Operation.update,
      Function.update_apply, get_eq]
  | removeKey key =>
    refine ⟨_, rfl, funext fun j => ?_⟩
    rw [get_eq, entries_removeKey, SortedDict.get_remove_of_lawful, Operation.update,
      Function.update_apply, get_eq]

/-- No run of operations raises an exception, and the dictionary after it answers like the map
of the insertions and removals. -/
theorem run_eq_some_get (d : FImmutableSortedDictionary cmp ν) (operations : List (Operation κ ν)) :
    ∃ d', d.run operations = some d' ∧ d'.get = operations.foldl Operation.update d.get := by
  induction operations generalizing d with
  | nil => exact ⟨d, rfl, rfl⟩
  | cons operation operations ih =>
    obtain ⟨d₁, hd₁, hget₁⟩ := d.perform_eq_some operation
    obtain ⟨d', hd', hget'⟩ := ih d₁
    refine ⟨d', ?_, by rw [hget', hget₁, List.foldl_cons]⟩
    rw [run, List.foldlM_cons, hd₁]
    exact hd'

/-- A key is put in twice and another one is taken out. -/
theorem run_eq_some_get_three :
    ∃ d', (empty : FImmutableSortedDictionary (compare : ℕ → ℕ → Ordering) Char).run
        [.insertKey 5 'e', .removeKey 2, .insertKey 5 'f'] = some d' ∧
      d'.get 5 = some 'f' ∧ d'.get 2 = none := by
  obtain ⟨d', hd', hget⟩ :=
    run_eq_some_get (empty : FImmutableSortedDictionary (compare : ℕ → ℕ → Ordering) Char)
      [.insertKey 5 'e', .removeKey 2, .insertKey 5 'f']
  exact ⟨d', hd', by rw [hget]; rfl, by rw [hget]; rfl⟩

end Runs

end FImmutableSortedDictionary

end LearnCode.FirebaseDatabase
