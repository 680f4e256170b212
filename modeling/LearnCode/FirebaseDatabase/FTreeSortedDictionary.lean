import LearnCode.FirebaseDatabase.FLLRBRemove
import LearnCode.FirebaseDatabase.TreeBuilder
import Mathlib.Data.List.Sort

/-!
# The dictionary that is backed by a tree

`FTreeSortedDictionary`: its operations make the root black again after the tree has changed,
its reads go down one path, and a dictionary is built with all its entries at once.

## Main definitions

* `FTreeSortedDictionary cmp`: a tree whose keys ascend and that passes the check;
* `insertKey`, `removeKey`, `get`, `getPredecessorKey`, `fromDictionary`: the operations.

## Main results

* `entries_insertKey`, `entries_removeKey`, `get_eq`: the operations are those of the list of
  entries;
* `entries_fromDictionary`, `isSome_fromDictionary_iff`: a dictionary with distinct keys is
  built, with its entries in order;
* `height_le_two_mul_log2`: the tree is not deeper than twice the logarithm of its size;
* `getPredecessorKey_eq`: the key before a key that is there.
-/

namespace LearnCode.FirebaseDatabase

open FLLRBColor FLLRBNode

variable {κ ν : Type}

/-- `FTreeSortedDictionary`: the root of a tree whose keys ascend. -/
structure FTreeSortedDictionary (cmp : κ → κ → Ordering) (ν : Type) where
  /-- The root. -/
  root : FLLRBNode κ ν
  /-- The keys ascend. -/
  sorted : SortedDict.Sorted cmp root.entries
  /-- The root is black, and the tree passes the check. -/
  leaning : ∃ h, Leaning .black h root

/-- The first steps of `fromDictionary:withComparator:`: the entries are sorted by their keys;
`none` is the exception that is raised when two keys have the same order. -/
def sortedKeyList (cmp : κ → κ → Ordering) (dictionary : List (κ × ν)) :
    Option (List (κ × ν)) :=
  let sorted := dictionary.mergeSort (fun a b => (cmp a.1 b.1).isLE)
  if sorted.IsChain (fun a b => cmp a.1 b.1 = .lt) then some sorted else none

section SortedKeyList

variable {cmp : κ → κ → Ordering} [Std.TransCmp cmp] {dictionary entries : List (κ × ν)}

/-- What is sorted are the entries of the dictionary, in the order of their keys. -/
theorem sorted_of_sortedKeyList (h : sortedKeyList cmp dictionary = some entries) :
    SortedDict.Sorted cmp entries ∧ entries.Perm dictionary := by
  simp only [sortedKeyList] at h
  split at h
  · rename_i hchain
    cases h
    exact ⟨SortedDict.isChain_iff_sorted.mp hchain, List.mergeSort_perm _ _⟩
  · cases h

/-- Sorting keeps the number of entries. -/
theorem length_of_sortedKeyList (h : sortedKeyList cmp dictionary = some entries) :
    dictionary.length = entries.length :=
  (sorted_of_sortedKeyList h).2.length_eq.symm

/-- The entries of a dictionary are sorted when no two of its keys have the same order. -/
theorem isSome_sortedKeyList_iff :
    (sortedKeyList cmp dictionary).isSome ↔
      dictionary.Pairwise (fun a b => cmp a.1 b.1 ≠ .eq) := by
  have hsymm : ∀ {a b : κ × ν}, cmp a.1 b.1 ≠ .eq → cmp b.1 a.1 ≠ .eq :=
    fun h heq => h (Std.OrientedCmp.eq_symm heq)
  constructor
  · intro h
    obtain ⟨entries, hentries⟩ := Option.isSome_iff_exists.mp h
    obtain ⟨hsorted, hperm⟩ := sorted_of_sortedKeyList hentries
    refine (hperm.pairwise_iff hsymm).mp (List.Pairwise.imp (fun hlt heq => ?_) hsorted)
    rw [hlt] at heq
    cases heq
  · intro h
    have hperm := List.mergeSort_perm dictionary (fun a b => (cmp a.1 b.1).isLE)
    -- the sort leaves no key before a smaller one
    have hle := List.pairwise_mergeSort
      (fun (a b c : κ × ν) (hab : (cmp a.1 b.1).isLE) hbc => Std.TransCmp.isLE_trans hab hbc)
      (fun a b => by
        cases hab : cmp a.1 b.1 with
        | lt => simp
        | eq => simp
        | gt => simp [Std.OrientedCmp.lt_of_gt hab]) dictionary
    have hsorted : SortedDict.Sorted cmp
        (dictionary.mergeSort (fun a b => (cmp a.1 b.1).isLE)) := by
      -- and no two keys have the same order
      refine (hle.and ((hperm.pairwise_iff hsymm).mpr h)).imp fun {a b} hab => ?_
      cases hcmp : cmp a.1 b.1 with
      | lt => rfl
      | eq => exact absurd hcmp hab.2
      | gt => simp [hcmp] at hab
    simp only [sortedKeyList]
    rw [if_pos (SortedDict.isChain_iff_sorted.mpr hsorted)]
    rfl

end SortedKeyList

namespace FLLRBNode

/-- The loop of `get:`. -/
def get (cmp : κ → κ → Ordering) (key : κ) : FLLRBNode κ ν → Option ν
  | empty => none
  | value k v _ l r =>
    match cmp key k with
    | .eq => some v
    | .lt => get cmp key l
    | .gt => get cmp key r

/-- The loop of `getPredecessorKey:`; `none` is the exception "NonexistentKey". -/
def getPredecessorKey (cmp : κ → κ → Ordering) (key : κ) : FLLRBNode κ ν →
    (rightParent : Option κ) → Option (Option κ)
  | empty, _ => none
  | value k _ _ l r, rightParent =>
    match cmp key k with
    | .eq => if l.isEmpty then some rightParent else some l.maxKey
    | .lt => getPredecessorKey cmp key l rightParent
    | .gt => getPredecessorKey cmp key r (some k)

/-- The number of nodes on the longest path to a leaf. -/
def height : FLLRBNode κ ν → ℕ
  | empty => 0
  | value _ _ _ l r => max l.height r.height + 1

/-- `checkMaxDepth`, for the depth that the check gave. -/
def checkMaxDepth (n : FLLRBNode κ ν) : Except CheckException Bool := do
  let blackDepth ← n.check
  return (2 : ℤ) ^ blackDepth ≤ CInt.wrap (n.count + 1)

/-- The loop of `get:` finds the value in the list of entries. -/
theorem get_eq {cmp : κ → κ → Ordering} [Std.TransCmp cmp] (key : κ) {n : FLLRBNode κ ν}
    (hn : SortedDict.Sorted cmp n.entries) : n.get cmp key = SortedDict.get cmp key n.entries := by
  induction n with
  | empty => rfl
  | value k v c l r ihl ihr =>
    obtain ⟨hl, hr, hlk, hkr⟩ := SortedDict.sorted_append_cons_iff.mp hn
    rw [get, entries_value, SortedDict.get_append_cons hlk hkr]
    cases cmp key k with
    | lt => exact ihl hl
    | eq => rfl
    | gt => exact ihr hr

/-- The last entry of a list that is split at an entry. -/
theorem getLast?_append_cons {α : Type} (l : List α) (e : α) (r : List α) :
    (l ++ e :: r).getLast? = some (r.getLast?.getD e) := by
  rw [List.getLast?_append, List.getLast?_cons, Option.some_or]

/-- There are as many value nodes as entries. -/
theorem size_eq_length (n : FLLRBNode κ ν) : n.size = n.entries.length := by
  induction n with
  | empty => rfl
  | value k v c l r ihl ihr => simp only [size, entries_value, List.length_append,
      List.length_cons, ihl, ihr]; omega

/-- `count` is the number of entries, wrapped. -/
theorem count_eq (n : FLLRBNode κ ν) : n.count = CInt.wrap n.entries.length := by
  induction n with
  | empty => exact (CInt.wrap_natCast (by decide)).symm
  | value k v c l r ihl ihr =>
    rw [count, ihl, ihr, CInt.wrap_add_wrap, CInt.wrap_wrap_add, add_assoc, CInt.wrap_wrap_add,
      entries_value, List.length_append, List.length_cons]
    congr 1
    omega

/-- The greatest key is the last. -/
theorem maxKey_eq (n : FLLRBNode κ ν) : n.maxKey = n.entries.getLast?.map Prod.fst := by
  induction n with
  | empty => rfl
  | value k v c l r ihl ihr =>
    rw [entries_value, getLast?_append_cons]
    cases r with
    | empty => rfl
    | value k' v' c' l' r' =>
      rw [maxKey, ihr, entries_value, getLast?_append_cons]
      · rfl
      · simp

/-- The least key is the first. -/
theorem minKey_eq (n : FLLRBNode κ ν) : n.minKey = n.entries.head?.map Prod.fst := by
  cases hn : n.isEmpty with
  | true =>
    cases n with
    | empty => rfl
    | value k v c l r => cases hn
  | false =>
    obtain ⟨k, v, c, r, es, hmin, hentries⟩ := min_eq hn
    rw [minKey, hmin, hentries]
    rfl

/-- The loop of `getPredecessorKey:` finds the last of the keys before a key that is there. -/
theorem getPredecessorKey_eq {cmp : κ → κ → Ordering} [Std.TransCmp cmp] (key : κ)
    {n : FLLRBNode κ ν} (hn : SortedDict.Sorted cmp n.entries) (rightParent : Option κ) :
    n.getPredecessorKey cmp key rightParent =
      (SortedDict.get cmp key n.entries).map fun _ =>
        ((n.entries.filter (fun e => cmp e.1 key == .lt)).getLast?.map Prod.fst).or
          rightParent := by
  induction n generalizing rightParent with
  | empty => rfl
  | value k v c l r ihl ihr =>
    obtain ⟨hl, hr, hlk, hkr⟩ := SortedDict.sorted_append_cons_iff.mp hn
    rw [getPredecessorKey, entries_value, SortedDict.get_append_cons hlk hkr,
      SortedDict.filter_append_cons hlk hkr (· == .lt)]
    cases hk : cmp key k with
    -- the parent on the left is the last one that was passed to the right
    | lt => simpa using ihl hl rightParent
    | eq =>
      -- at the key itself it is the last key of the left child, if there is one
      rw [maxKey_eq, isEmpty_eq_isEmpty_entries]
      cases hlast : l.entries.getLast? with
      | none => simp [List.getLast?_eq_none_iff.mp hlast]
      | some e =>
        have hne : l.entries.isEmpty = false := by
          cases hl' : l.entries with
          | nil => rw [hl'] at hlast; cases hlast
          | cons _ _ => rfl
        simp [hne, hlast]
    | gt =>
      simp only [ihr hr, beq_self_eq_true, if_true, List.append_assoc, List.singleton_append,
        getLast?_append_cons]
      cases (r.entries.filter fun e => cmp e.1 key == .lt).getLast? <;> simp

/-- A leaning tree has at least as many nodes as a perfect tree of its depth. -/
theorem Leaning.two_pow_le {c : FLLRBColor} {h : ℕ} {n : FLLRBNode κ ν} (hn : Leaning c h n) :
    2 ^ h ≤ n.size + 1 := by
  induction hn with
  | empty => exact le_rfl
  | red _ _ ihl ihr => simp only [size]; omega
  | black _ _ ihl ihr => simp only [size, pow_succ]; omega

/-- On every path of a leaning tree at most every second node is red. -/
theorem Leaning.height_le {c : FLLRBColor} {h : ℕ} {n : FLLRBNode κ ν} (hn : Leaning c h n) :
    n.height ≤ 2 * h + if c = .red then 1 else 0 := by
  induction hn with
  | empty => exact le_rfl
  | red _ _ ihl ihr => simp only [height] at *; simp at *; omega
  | @black k v c h l r _ _ ihl ihr =>
    simp only [height] at *
    cases c <;> simp at * <;> omega

end FLLRBNode

namespace FTreeSortedDictionary

variable {cmp : κ → κ → Ordering}

/-- The entries in the order of their keys. -/
def entries (d : FTreeSortedDictionary cmp ν) : List (κ × ν) := d.root.entries

/-- `initWithComparator:`. -/
def empty : FTreeSortedDictionary cmp ν :=
  { root := .empty, sorted := SortedDict.sorted_nil, leaning := ⟨0, .empty⟩ }

/-- `get:`. -/
def get (d : FTreeSortedDictionary cmp ν) (key : κ) : Option ν := d.root.get cmp key

/-- `contains:`. -/
def contains (d : FTreeSortedDictionary cmp ν) (key : κ) : Bool := (d.get key).isSome

/-- `count`, an `int`. -/
def count (d : FTreeSortedDictionary cmp ν) : ℤ := d.root.count

/-- `getPredecessorKey:`. -/
def getPredecessorKey (d : FTreeSortedDictionary cmp ν) (key : κ) : Option (Option κ) :=
  d.root.getPredecessorKey cmp key none

/-- `fromDictionary:withComparator:`, for a dictionary whose keys, and one more, are counted by an
`unsigned int`. -/
def fromDictionary [Std.TransCmp cmp] (dictionary : List (κ × ν))
    (h : dictionary.length + 1 < 2 ^ 32) : Option (FTreeSortedDictionary cmp ν) :=
  match hsorted : sortedKeyList cmp dictionary with
  | none => none
  | some keys =>
    match hroot : rootFrom12List (.new keys.length) keys with
    | none => none
    | some root =>
      some
        { root
          sorted := by
            obtain ⟨t, h, ht, -, hentries⟩ :=
              rootFrom12List_eq_some (length_of_sortedKeyList hsorted ▸ h)
            obtain rfl : root = t := Option.some.inj (hroot.symm.trans ht)
            rw [hentries]
            exact (sorted_of_sortedKeyList hsorted).1
          leaning := by
            obtain ⟨t, h, ht, hleaning, -⟩ :=
              rootFrom12List_eq_some (length_of_sortedKeyList hsorted ▸ h)
            obtain rfl : root = t := Option.some.inj (hroot.symm.trans ht)
            exact ⟨h, hleaning⟩ }

section Operations

variable [Std.TransCmp cmp] [Std.LawfulEqCmp cmp]

/-- `insertKey:withValue:`. -/
def insertKey (d : FTreeSortedDictionary cmp ν) (aKey : κ) (aValue : ν) :
    FTreeSortedDictionary cmp ν where
  root := (d.root.insertKey cmp aKey aValue).withColor .black
  sorted := by
    rw [entries_withColor, entries_insertKey aKey aValue d.sorted]
    exact d.sorted.insert aKey aValue
  leaning := by
    obtain ⟨h, hroot⟩ := d.leaning
    have hgrown := grown_insertKey cmp aKey aValue hroot
    generalize d.root.insertKey cmp aKey aValue = n at hgrown
    cases hgrown with
    | black hn => exact hn.exists_withColor_black

/-- `removeKey:`. -/
def removeKey (d : FTreeSortedDictionary cmp ν) (aKey : κ) : FTreeSortedDictionary cmp ν :=
  if d.contains aKey then
    { root := (d.root.remove cmp aKey).withColor .black
      sorted := by
        obtain ⟨h, hroot⟩ := d.leaning
        rw [entries_withColor, (remove_of_leaning aKey hroot d.sorted).2]
        exact d.sorted.remove aKey
      leaning := by
        obtain ⟨h, hroot⟩ := d.leaning
        exact (remove_of_leaning aKey hroot d.sorted).1 }
  else d

/-- An insertion is one in the list of entries. -/
theorem entries_insertKey (d : FTreeSortedDictionary cmp ν) (aKey : κ) (aValue : ν) :
    (d.insertKey aKey aValue).entries = SortedDict.insert cmp aKey aValue d.entries := by
  rw [entries, insertKey, entries_withColor, FLLRBNode.entries_insertKey aKey aValue d.sorted,
    entries]

omit [Std.LawfulEqCmp cmp] in
/-- A read is one in the list of entries. -/
theorem get_eq (d : FTreeSortedDictionary cmp ν) (key : κ) :
    d.get key = SortedDict.get cmp key d.entries :=
  FLLRBNode.get_eq key d.sorted

omit [Std.LawfulEqCmp cmp] in
/-- A removal is one in the list of entries. -/
theorem entries_removeKey (d : FTreeSortedDictionary cmp ν) (aKey : κ) :
    (d.removeKey aKey).entries = SortedDict.remove cmp aKey d.entries := by
  unfold removeKey
  split
  · obtain ⟨h, hroot⟩ := d.leaning
    rw [entries, entries_withColor, (remove_of_leaning aKey hroot d.sorted).2, entries]
  · rename_i hcontains
    rw [contains, get_eq, Bool.not_eq_true, Option.isSome_eq_false_iff, Option.isNone_iff_eq_none]
      at hcontains
    exact (SortedDict.remove_eq_self_of_forall_ne
      (SortedDict.get_eq_none_iff.mp hcontains)).symm

omit [Std.LawfulEqCmp cmp] in
/-- A dictionary is built from what is sorted. -/
theorem entries_fromDictionary (dictionary : List (κ × ν)) (h : dictionary.length + 1 < 2 ^ 32) :
    (fromDictionary dictionary h : Option (FTreeSortedDictionary cmp ν)).map entries =
      sortedKeyList cmp dictionary := by
  unfold fromDictionary
  split
  · rename_i hsorted
    rw [hsorted]
    rfl
  · rename_i keys hsorted
    obtain ⟨t, h, ht, -, hentries⟩ :=
      rootFrom12List_eq_some (length_of_sortedKeyList hsorted ▸ h)
    refine Eq.trans ?_ hsorted.symm
    split
    · rename_i hroot
      rw [ht] at hroot
      cases hroot
    · rename_i root hroot
      obtain rfl : root = t := Option.some.inj (hroot.symm.trans ht)
      exact congrArg some hentries

omit [Std.LawfulEqCmp cmp] in
/-- A dictionary is built when no two of its keys have the same order, with its entries in the
order of the keys. -/
theorem isSome_fromDictionary_iff (dictionary : List (κ × ν))
    (h : dictionary.length + 1 < 2 ^ 32) :
    ((fromDictionary dictionary h : Option (FTreeSortedDictionary cmp ν)).isSome ↔
        dictionary.Pairwise (fun a b => cmp a.1 b.1 ≠ .eq)) ∧
      ∀ d : FTreeSortedDictionary cmp ν, fromDictionary dictionary h = some d →
        d.entries.Perm dictionary := by
  have hmap := @entries_fromDictionary _ _ cmp _ dictionary h
  constructor
  · rw [← isSome_sortedKeyList_iff, ← hmap, Option.isSome_map]
  · intro d hd
    rw [hd] at hmap
    exact (sorted_of_sortedKeyList hmap.symm).2

/-- Two keys in descending order. -/
theorem isSome_fromDictionary_iff_two :
    (fromDictionary [(5, 'e'), (2, 'b')] (by decide) :
      Option (FTreeSortedDictionary (compare : ℕ → ℕ → Ordering) Char)).isSome = true :=
  (isSome_fromDictionary_iff _ _).1.mpr (by decide)

end Operations

/-- The depth of the tree of a dictionary is within the bound that is checked, where the number of
its entries and one is an `int`, and no path in it is longer than twice the logarithm of its size. -/
theorem height_le_two_mul_log2 (d : FTreeSortedDictionary cmp ν) :
    (d.entries.length + 1 < 2 ^ 31 → d.root.checkMaxDepth = .ok true) ∧
      d.root.height ≤ 2 * (d.entries.length + 1).log2 := by
  obtain ⟨h, hroot⟩ := d.leaning
  have hpow : 2 ^ h ≤ d.entries.length + 1 := d.root.size_eq_length ▸ hroot.two_pow_le
  constructor
  · intro hsize
    have hcount : CInt.wrap (d.root.count + 1) = (d.entries.length + 1 : ℕ) := by
      rw [FLLRBNode.count_eq, CInt.wrap_wrap_add]
      exact CInt.wrap_natCast hsize
    rw [checkMaxDepth, check_eq_ok_iff.mpr ⟨.black, hroot⟩]
    refine congrArg Except.ok (decide_eq_true ?_)
    rw [hcount]
    exact_mod_cast hpow
  · have hlog : h ≤ (d.entries.length + 1).log2 := (Nat.le_log2 (by omega)).mpr hpow
    have hheight : d.root.height ≤ 2 * h := by simpa using hroot.height_le
    exact hheight.trans (Nat.mul_le_mul_left 2 hlog)

/-- A tree of three entries passes the check of its depth. -/
theorem height_le_two_mul_log2_three :
    let d : FTreeSortedDictionary (compare : ℕ → ℕ → Ordering) Char :=
      ((empty.insertKey 5 'e').insertKey 2 'b').insertKey 7 'g'
    d.root.checkMaxDepth = .ok true :=
  (height_le_two_mul_log2 _).1 (by decide)

end FTreeSortedDictionary

end LearnCode.FirebaseDatabase
