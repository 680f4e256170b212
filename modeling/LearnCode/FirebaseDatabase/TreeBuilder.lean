import LearnCode.FirebaseDatabase.FLLRBNode
import Mathlib.Data.Nat.Bitwise

/-!
# Building a tree from sorted entries

`fromDictionary:withComparator:` builds a red-black tree in one pass. The number of entries is
written with the digits one and two, and each digit gives one or two pennants: a node over a
perfectly balanced tree of black nodes. The pennants hang below each other on the left, from the
greatest entries to the least.

## Main definitions

* `Base1_2List`: the digits that are still to come;
* `buildBalancedTree`: the tree below a pennant;
* `pennants`, `attachPennants`, `rootFrom12List`: the colors and sizes of the pennants, and the
  tree they make.

## Main results

* `buildBalancedTree_eq_some`: below a pennant of `2 ^ j` entries stands a tree of `j` black
  levels;
* `rootFrom12List_eq_some`: from any list whose entries, and one more, are counted by an
  `unsigned int`, the builder makes a leaning tree with exactly these entries, and never asks for an
  entry out of range.
-/

namespace LearnCode.FirebaseDatabase

open FLLRBColor FLLRBNode

variable {κ ν : Type}

/-- `Base1_2List`. -/
structure Base1_2List where
  /-- The digits: a bit that is not set stands for one, and a set bit for two. -/
  bits : ℕ
  /-- The number of digits. -/
  count : ℕ
  /-- The digit that is read next. -/
  current : ℕ

/-- `log_base2`: the logarithm, rounded down. -/
def log_base2 (num : ℕ) : ℕ := num.log2

/-- `bit_mask`. -/
def bit_mask (x : ℕ) : ℕ := 2 ^ x - 1

/-- `base1_2List_new`. The length is cast to an `unsigned int`, and one is added to it there. -/
def Base1_2List.new (length : ℕ) : Base1_2List :=
  let num := (length % 2 ^ 32 + 1) % 2 ^ 32
  let count := log_base2 num
  { bits := num &&& bit_mask count, count, current := count - 1 }

/-- `base1_2List_next`: whether the digit is one, and the list that goes on with the next. -/
def Base1_2List.next (list : Base1_2List) : Bool × Base1_2List :=
  (!list.bits.testBit list.current, { list with current := list.current - 1 })

/-- `buildBalancedTree:dictionary:subArrayStartIndex:length:`; `none` is the exception that an
index out of range raises. -/
def buildBalancedTree (keys : List (κ × ν)) (startIndex length : ℕ) :
    Option (FLLRBNode κ ν) :=
  let bounded := Min.min (keys.length - startIndex) length
  if bounded = 0 then some empty
  else if bounded = 1 then do
    let e ← keys[startIndex]?
    return value e.1 e.2 black empty empty
  else do
    let middle := bounded / 2
    let left ← buildBalancedTree keys startIndex middle
    let right ← buildBalancedTree keys (startIndex + middle + 1) middle
    let e ← keys[startIndex + middle]?
    return value e.1 e.2 black left right
termination_by length
decreasing_by all_goals omega

/-- The colors and sizes of the pennants that the loop of `rootFrom12List:` builds, when
`remaining` digits are left. -/
def pennants : (remaining : ℕ) → Base1_2List → List (FLLRBColor × ℕ)
  | 0, _ => []
  | remaining + 1, list =>
    let chunkSize := 2 ^ remaining
    let (isOne, list) := list.next
    if isOne then (black, chunkSize) :: pennants remaining list
    else (black, chunkSize) :: (red, chunkSize) :: pennants remaining list

/-- `buildPennant` for each pennant: it takes the greatest entries that are left, and the next
pennant becomes its left child. -/
def attachPennants (keys : List (κ × ν)) : List (FLLRBColor × ℕ) → (index : ℕ) →
    Option (FLLRBNode κ ν)
  | [], _ => some empty
  | (color, chunkSize) :: rest, index => do
    let startIndex := index - chunkSize + 1
    let index := index - chunkSize
    let e ← keys[index]?
    let childTree ← buildBalancedTree keys startIndex (chunkSize - 1)
    let left ← attachPennants keys rest index
    return value e.1 e.2 color left childTree

/-- `rootFrom12List:keyList:dictionary:`, for the entries in the order of their keys. -/
def rootFrom12List (list : Base1_2List) (keys : List (κ × ν)) : Option (FLLRBNode κ ν) :=
  attachPennants keys (pennants list.count list) keys.length

/-! ## Pennants -/

/-- A part of a list, split at one of its elements. -/
theorem take_drop_eq_append {α : Type} {l : List α} {s a b : ℕ} (h : s + a < l.length) :
    (l.drop s).take (a + 1 + b) =
      (l.drop s).take a ++ l[s + a] :: (l.drop (s + a + 1)).take b := by
  rw [Nat.add_assoc, List.take_add, List.drop_drop, Nat.add_comm 1 b,
    List.drop_eq_getElem_cons h, List.take_succ_cons]

/-- Below a pennant of `2 ^ j` entries stands a tree of `j` black levels with all its other
entries. -/
theorem buildBalancedTree_eq_some (keys : List (κ × ν)) (j : ℕ) (startIndex : ℕ)
    (h : startIndex + (2 ^ j - 1) ≤ keys.length) :
    ∃ t, buildBalancedTree keys startIndex (2 ^ j - 1) = some t ∧ Leaning .black j t ∧
      t.entries = (keys.drop startIndex).take (2 ^ j - 1) := by
  induction j generalizing startIndex with
  | zero => exact ⟨empty, by rw [buildBalancedTree]; simp, .empty, by simp⟩
  | succ j ih =>
    have hpow : 2 ^ (j + 1) = 2 * 2 ^ j := by rw [pow_succ]; omega
    have hpos : 0 < 2 ^ j := Nat.two_pow_pos j
    have hmin : Min.min (keys.length - startIndex) (2 ^ (j + 1) - 1) = 2 ^ (j + 1) - 1 := by
      omega
    have hmiddle : (2 ^ (j + 1) - 1) / 2 = 2 ^ j - 1 := by omega
    have hlt : startIndex + (2 ^ j - 1) < keys.length := by omega
    have hsplit : 2 ^ (j + 1) - 1 = (2 ^ j - 1) + 1 + (2 ^ j - 1) := by omega
    -- a single entry has a branch of its own in the source
    cases j with
    | zero =>
      refine ⟨value keys[startIndex].1 keys[startIndex].2 .black empty empty, ?_,
        .black .empty .empty, ?_⟩
      · rw [buildBalancedTree]
        simp only [hmin]
        simp [List.getElem?_eq_getElem (show startIndex < keys.length from hlt)]
      · rw [hsplit, take_drop_eq_append hlt]
        simp
    | succ j =>
      obtain ⟨left, hleft, hleaningLeft, hentriesLeft⟩ := ih startIndex (by omega)
      obtain ⟨right, hright, hleaningRight, hentriesRight⟩ :=
        ih (startIndex + (2 ^ (j + 1) - 1) + 1) (by omega)
      have hne : 2 ^ (j + 1 + 1) - 1 ≠ 0 ∧ 2 ^ (j + 1 + 1) - 1 ≠ 1 := by
        have hpos' : 0 < 2 ^ j := Nat.two_pow_pos j
        have hpow' : 2 ^ (j + 1) = 2 * 2 ^ j := by rw [pow_succ]; omega
        omega
      let e := keys[startIndex + (2 ^ (j + 1) - 1)]
      refine ⟨value e.1 e.2 .black left right, ?_, .black hleaningLeft hleaningRight, ?_⟩
      · rw [buildBalancedTree]
        simp only [hmin, if_neg hne.1, if_neg hne.2, hmiddle, hleft, hright,
          List.getElem?_eq_getElem hlt]
        rfl
      · rw [entries_value, hentriesLeft, hentriesRight, hsplit, take_drop_eq_append hlt]

/-- A pennant of `2 ^ j` entries takes the greatest entries that are left, and has the tree of
all smaller ones on its left. -/
theorem attachPennants_cons {keys : List (κ × ν)} (color : FLLRBColor) {j index : ℕ}
    {rest : List (FLLRBColor × ℕ)} {left : FLLRBNode κ ν} (hj : 2 ^ j ≤ index)
    (hindex : index ≤ keys.length)
    (hleft : attachPennants keys rest (index - 2 ^ j) = some left)
    (hentries : left.entries = keys.take (index - 2 ^ j)) :
    ∃ k v childTree,
      attachPennants keys ((color, 2 ^ j) :: rest) index = some (value k v color left childTree) ∧
        Leaning .black j childTree ∧
        (value k v color left childTree).entries = keys.take index := by
  -- the pennant takes the last keys, its root the first of them and its child the others
  have hpos : 0 < 2 ^ j := Nat.two_pow_pos j
  have hlt : index - 2 ^ j < keys.length := by omega
  obtain ⟨childTree, hchild, hleaning, hchildEntries⟩ :=
    buildBalancedTree_eq_some keys j (index - 2 ^ j + 1) (by omega)
  refine ⟨keys[index - 2 ^ j].1, keys[index - 2 ^ j].2, childTree, ?_, hleaning, ?_⟩
  · simp only [attachPennants, List.getElem?_eq_getElem hlt, hchild, hleft]
    rfl
  · have hsplit := take_drop_eq_append (l := keys) (s := 0) (a := index - 2 ^ j)
      (b := 2 ^ j - 1) (by omega)
    have hlen : index - 2 ^ j + 1 + (2 ^ j - 1) = index := by omega
    rw [hlen] at hsplit
    simpa [hentries, hchildEntries] using hsplit.symm

/-- The value of the binary digits up to the `j`-th, from those below it. -/
theorem mod_two_pow_succ (x j : ℕ) :
    x % 2 ^ (j + 1) = x % 2 ^ j + if x.testBit j then 2 ^ j else 0 := by
  rw [Nat.mod_pow_succ, Nat.testBit_eq_decide_div_mod_eq]
  rcases Nat.mod_two_eq_zero_or_one (x / 2 ^ j) with h | h <;> simp [h]

/-- From the digits below the `remaining`-th the builder makes a leaning tree of that depth, with
as many entries as the digits say. -/
theorem attachPennants_pennants (keys : List (κ × ν)) (remaining : ℕ) (list : Base1_2List)
    (hcurrent : list.current = remaining - 1) (index : ℕ)
    (hindex : index = 2 ^ remaining - 1 + list.bits % 2 ^ remaining)
    (hle : index ≤ keys.length) :
    ∃ t, attachPennants keys (pennants remaining list) index = some t ∧
      Leaning .black remaining t ∧ t.entries = keys.take index := by
  induction remaining generalizing list index with
  | zero =>
    have hzero : index = 0 := by simpa [Nat.mod_one] using hindex
    exact ⟨empty, rfl, .empty, by simp [hzero]⟩
  | succ j ih =>
    have hpos : 0 < 2 ^ j := Nat.two_pow_pos j
    have hpow : 2 ^ (j + 1) = 2 * 2 ^ j := by rw [pow_succ]; omega
    have hmod := mod_two_pow_succ list.bits j
    have hj : list.current = j := hcurrent
    have hnext : list.next.2.current = j - 1 := by simp [Base1_2List.next, hj]
    have hbits : list.next.2.bits = list.bits := rfl
    cases hbit : list.bits.testBit j with
    | false =>
      -- the digit is one: a black pennant over the tree of the lower digits
      rw [hbit, if_neg (by simp)] at hmod
      obtain ⟨left, hleft, hleaning, hentries⟩ := ih list.next.2 hnext
        (index - 2 ^ j) (by rw [hbits]; omega) (by omega)
      obtain ⟨k, v, childTree, hroot, hchild, hall⟩ :=
        attachPennants_cons .black (by omega) hle hleft hentries
      refine ⟨_, ?_, .black hleaning hchild, hall⟩
      simpa [pennants, Base1_2List.next, hj, hbit] using hroot
    | true =>
      -- the digit is two: a red pennant hangs on the left of a black one
      rw [hbit, if_pos rfl] at hmod
      obtain ⟨left, hleft, hleaning, hentries⟩ := ih list.next.2 hnext
        (index - 2 ^ j - 2 ^ j) (by rw [hbits]; omega) (by omega)
      obtain ⟨k, v, childTree, hred, hchild, hredEntries⟩ :=
        attachPennants_cons .red (by omega) (by omega) hleft hentries
      obtain ⟨k', v', childTree', hroot, hchild', hall⟩ :=
        attachPennants_cons .black (by omega) hle hred hredEntries
      refine ⟨_, ?_, .black (.red hleaning hchild) hchild', hall⟩
      simpa [pennants, Base1_2List.next, hj, hbit] using hroot

/-- The digits of a length that an `unsigned int` counts with one more. -/
theorem new_of_lt {length : ℕ} (h : length + 1 < 2 ^ 32) :
    Base1_2List.new length =
      { bits := (length + 1) % 2 ^ (length + 1).log2
        count := (length + 1).log2
        current := (length + 1).log2 - 1 } := by
  have hnum : (length % 2 ^ 32 + 1) % 2 ^ 32 = length + 1 := by omega
  simp only [Base1_2List.new, hnum, log_base2, bit_mask, Nat.and_two_pow_sub_one_eq_mod]

/-- From any list whose entries, and one more, are counted by an `unsigned int`, the builder makes a
leaning tree with exactly these entries, and never asks for an entry out of range. -/
theorem rootFrom12List_eq_some {keys : List (κ × ν)} (h : keys.length + 1 < 2 ^ 32) :
    ∃ t h, rootFrom12List (.new keys.length) keys = some t ∧ Leaning .black h t ∧
      t.entries = keys := by
  have hlog : 2 ^ (keys.length + 1).log2 ≤ keys.length + 1 := Nat.log2_self_le (by omega)
  have hlt : keys.length + 1 < 2 ^ ((keys.length + 1).log2 + 1) := Nat.lt_log2_self
  -- the digits of the length, each one more than a bit, add up to the length
  have hsum : keys.length = 2 ^ (keys.length + 1).log2 - 1 +
      (keys.length + 1) % 2 ^ (keys.length + 1).log2 % 2 ^ (keys.length + 1).log2 := by
    rw [pow_succ] at hlt
    rw [Nat.mod_mod, Nat.mod_eq_sub_mod hlog, Nat.mod_eq_of_lt (by omega)]
    omega
  rw [new_of_lt h]
  obtain ⟨t, hroot, hleaning, hentries⟩ :=
    attachPennants_pennants keys (keys.length + 1).log2
      { bits := (keys.length + 1) % 2 ^ (keys.length + 1).log2
        count := (keys.length + 1).log2
        current := (keys.length + 1).log2 - 1 } rfl keys.length hsum le_rfl
  exact ⟨t, _, hroot, hleaning, by rw [hentries, List.take_length]⟩

end LearnCode.FirebaseDatabase
