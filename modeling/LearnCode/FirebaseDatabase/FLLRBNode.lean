import LearnCode.Library.CInt
import LearnCode.Library.SortedDict
import Mathlib.Tactic.Linarith

/-!
# Left-leaning red-black trees

The nodes of the tree that backs a large sorted dictionary: an insertion goes down one path and
repairs each node on the way back, and a removal first moves red links into its path.

## Main definitions

* `FLLRBNode`: an empty node, or a value node with its key, value, color and children;
* `insertKey`, `removeMin`, `remove`: the operations, with the rotations and color flips they
  are made of;
* `check`: the depth in black nodes, or the exception that a broken tree raises;
* `entries` and `size`: the entries in the order of the tree, and their number, of which `count` is
  the `int`;
* `Leaning c h n`: no red node has a red child, only left children are red, and every path from
  `n`, whose color is `c`, to a leaf has `h` black nodes.

## Main results

* `check_eq_ok_iff`: the trees that pass the check are the leaning ones;
* `entries_insertKey`: an insertion is one in the list of entries;
* `grown_insertKey`, `check_insertKey_eq_ok`: an insertion keeps the tree leaning, once its root
  is black again.
-/

namespace LearnCode.FirebaseDatabase

/-- `FLLRBColor`. -/
inductive FLLRBColor : Type where
  | red
  | black
deriving DecidableEq

namespace FLLRBColor

/-- The other color. -/
def flip : FLLRBColor → FLLRBColor
  | red => black
  | black => red

@[simp] theorem flip_red : flip red = black := rfl

@[simp] theorem flip_black : flip black = red := rfl

end FLLRBColor

open FLLRBColor

/-- `FLLRBNode`: the empty node and the value nodes. -/
inductive FLLRBNode (κ ν : Type) : Type where
  /-- `FLLRBEmptyNode`. -/
  | empty
  /-- `FLLRBValueNode`. -/
  | value (key : κ) (value : ν) (color : FLLRBColor) (left right : FLLRBNode κ ν)
deriving DecidableEq

namespace FLLRBNode

variable {κ ν : Type}

/-- `left`; a message to the `nil` left of the empty node is answered like one to an empty
node. -/
def left : FLLRBNode κ ν → FLLRBNode κ ν
  | empty => empty
  | value _ _ _ l _ => l

/-- `right`. -/
def right : FLLRBNode κ ν → FLLRBNode κ ν
  | empty => empty
  | value _ _ _ _ r => r

/-- `isRed`. -/
def isRed : FLLRBNode κ ν → Bool
  | empty => false
  | value _ _ c _ _ => c = red

/-- `isEmpty`. -/
def isEmpty : FLLRBNode κ ν → Bool
  | empty => true
  | value .. => false

/-- The number of value nodes. -/
def size : FLLRBNode κ ν → ℕ
  | empty => 0
  | value _ _ _ l r => l.size + 1 + r.size

/-- `count`, an `int`. -/
def count : FLLRBNode κ ν → ℤ
  | empty => 0
  | value _ _ _ l r => CInt.wrap (CInt.wrap (l.count + 1) + r.count)

/-- `copyWith:` with a new color. -/
def withColor (c : FLLRBColor) : FLLRBNode κ ν → FLLRBNode κ ν
  | empty => empty
  | value k v _ l r => value k v c l r

/-- `copyWith:` with a new left child. -/
def withLeft : FLLRBNode κ ν → FLLRBNode κ ν → FLLRBNode κ ν
  | empty, _ => empty
  | value k v c _ r, l => value k v c l r

/-- `copyWith:` with a new right child. -/
def withRight : FLLRBNode κ ν → FLLRBNode κ ν → FLLRBNode κ ν
  | empty, _ => empty
  | value k v c l _, r => value k v c l r

/-- `copyWith:` with the key and the value of another node. -/
def withEntry : FLLRBNode κ ν → FLLRBNode κ ν → FLLRBNode κ ν
  | value _ _ c l r, value k v _ _ _ => value k v c l r
  | n, _ => n

/-- `comparator(aKey, n.key)`; it is never asked for the empty node. -/
def compareKey (cmp : κ → κ → Ordering) (aKey : κ) : FLLRBNode κ ν → Ordering
  | empty => .eq
  | value k _ _ _ _ => cmp aKey k

/-- `copyWith:` with the color that the node does not have. -/
def flipped : FLLRBNode κ ν → FLLRBNode κ ν
  | empty => empty
  | value k v c l r => value k v c.flip l r

/-- `rotateLeft`; a copy of the empty node is the empty node. -/
def rotateLeft : FLLRBNode κ ν → FLLRBNode κ ν
  | value k v c l (value k' v' _ l' r') => value k' v' c (value k v red l l') r'
  | _ => empty

/-- `rotateRight`. -/
def rotateRight : FLLRBNode κ ν → FLLRBNode κ ν
  | value k v c (value k' v' _ l' r') r => value k' v' c l' (value k v red r' r)
  | _ => empty

/-- `colorFlip`. -/
def colorFlip : FLLRBNode κ ν → FLLRBNode κ ν
  | empty => empty
  | value k v c l r => value k v c.flip l.flipped r.flipped

/-- The first step of `fixUp`. -/
def leanLeft (n : FLLRBNode κ ν) : FLLRBNode κ ν :=
  if n.right.isRed && !n.left.isRed then n.rotateLeft else n

/-- The second step of `fixUp`. -/
def balance (n : FLLRBNode κ ν) : FLLRBNode κ ν :=
  if n.left.isRed && n.left.left.isRed then n.rotateRight else n

/-- The third step of `fixUp`. -/
def split (n : FLLRBNode κ ν) : FLLRBNode κ ν :=
  if n.left.isRed && n.right.isRed then n.colorFlip else n

/-- `fixUp`. -/
def fixUp (n : FLLRBNode κ ν) : FLLRBNode κ ν := n.leanLeft.balance.split

/-- `moveRedLeft`. -/
def moveRedLeft (n : FLLRBNode κ ν) : FLLRBNode κ ν :=
  let n := n.colorFlip
  if n.right.left.isRed then (n.withRight n.right.rotateRight).rotateLeft.colorFlip else n

/-- `moveRedRight`. -/
def moveRedRight (n : FLLRBNode κ ν) : FLLRBNode κ ν :=
  let n := n.colorFlip
  if n.left.left.isRed then n.rotateRight.colorFlip else n

/-- `min`. -/
def min : FLLRBNode κ ν → FLLRBNode κ ν
  | empty => empty
  | value k v c empty r => value k v c empty r
  | value _ _ _ l _ => l.min

/-- `minKey`. -/
def minKey (n : FLLRBNode κ ν) : Option κ :=
  match n.min with
  | empty => none
  | value k _ _ _ _ => some k

/-- `maxKey`. -/
def maxKey : FLLRBNode κ ν → Option κ
  | empty => none
  | value k _ _ _ empty => some k
  | value _ _ _ _ r => r.maxKey

/-- The entries in the order of the tree. -/
def entries : FLLRBNode κ ν → List (κ × ν)
  | empty => []
  | value k v _ l r => l.entries ++ (k, v) :: r.entries

/-- `inorderTraversal:`, with what the action changes: the nodes are visited until the action
returns `YES`. -/
def inorderTraversal {σ : Type} (action : κ → ν → σ → Bool × σ) :
    FLLRBNode κ ν → σ → Bool × σ
  | empty, s => (false, s)
  | value k v _ l r, s =>
    match inorderTraversal action l s with
    | (true, s) => (true, s)
    | (false, s) =>
      match action k v s with
      | (true, s) => (true, s)
      | (false, s) => inorderTraversal action r s

/-- `reverseTraversal:`. -/
def reverseTraversal {σ : Type} (action : κ → ν → σ → Bool × σ) :
    FLLRBNode κ ν → σ → Bool × σ
  | empty, s => (false, s)
  | value k v _ l r, s =>
    match reverseTraversal action r s with
    | (true, s) => (true, s)
    | (false, s) =>
      match action k v s with
      | (true, s) => (true, s)
      | (false, s) => reverseTraversal action l s

/-- What `check` raises. -/
inductive CheckException : Type where
  /-- "Red node has a red child". -/
  | redChild
  /-- "Right child is red". -/
  | redRight
  /-- The depths of the two children. -/
  | blackDepth (left right : ℕ)
deriving DecidableEq

/-- `check`. -/
def check : FLLRBNode κ ν → Except CheckException ℕ
  | empty => .ok 0
  | value _ _ c l r =>
    if c = red ∧ l.isRed then .error .redChild
    else if r.isRed then .error .redRight
    else do
      let blackDepth ← l.check
      let rightDepth ← r.check
      if blackDepth ≠ rightDepth then .error (.blackDepth blackDepth rightDepth)
      else .ok (blackDepth + if c = red then 0 else 1)

/-- `insertKey:forValue:withComparator:`. -/
def insertKey (cmp : κ → κ → Ordering) (aKey : κ) (aValue : ν) :
    FLLRBNode κ ν → FLLRBNode κ ν
  | empty => value aKey aValue red empty empty
  | value k v c l r =>
    match cmp aKey k with
    | .lt => (value k v c (insertKey cmp aKey aValue l) r).fixUp
    | .eq => (value k aValue c l r).fixUp
    | .gt => (value k v c l (insertKey cmp aKey aValue r)).fixUp

@[simp] theorem left_value (k : κ) (v : ν) (c : FLLRBColor) (l r : FLLRBNode κ ν) :
    (value k v c l r).left = l := rfl

@[simp] theorem right_value (k : κ) (v : ν) (c : FLLRBColor) (l r : FLLRBNode κ ν) :
    (value k v c l r).right = r := rfl

@[simp] theorem isRed_value (k : κ) (v : ν) (c : FLLRBColor) (l r : FLLRBNode κ ν) :
    (value k v c l r).isRed = decide (c = red) := rfl

@[simp] theorem isRed_empty : (empty : FLLRBNode κ ν).isRed = false := rfl

@[simp] theorem isEmpty_value (k : κ) (v : ν) (c : FLLRBColor) (l r : FLLRBNode κ ν) :
    (value k v c l r).isEmpty = false := rfl

@[simp] theorem entries_value (k : κ) (v : ν) (c : FLLRBColor) (l r : FLLRBNode κ ν) :
    (value k v c l r).entries = l.entries ++ (k, v) :: r.entries := rfl

@[simp] theorem entries_empty : (empty : FLLRBNode κ ν).entries = [] := rfl

/-! ## Sizes -/

theorem size_flipped (n : FLLRBNode κ ν) : n.flipped.size = n.size := by
  cases n <;> rfl

theorem size_colorFlip (n : FLLRBNode κ ν) : n.colorFlip.size = n.size := by
  cases n <;> simp [colorFlip, size, size_flipped]

theorem size_rotateLeft_le (n : FLLRBNode κ ν) : n.rotateLeft.size ≤ n.size := by
  unfold rotateLeft
  split
  · simp only [size]; omega
  · simp [size]

theorem size_rotateRight_le (n : FLLRBNode κ ν) : n.rotateRight.size ≤ n.size := by
  unfold rotateRight
  split
  · simp only [size]; omega
  · simp [size]

theorem size_withRight_le {n r : FLLRBNode κ ν} (h : r.size ≤ n.right.size) :
    (n.withRight r).size ≤ n.size := by
  cases n with
  | empty => simp [withRight]
  | value k v c l r' => simpa [withRight, right, size] using h

/-- Moving a red link to the left adds no node. -/
theorem size_moveRedLeft_le (n : FLLRBNode κ ν) : n.moveRedLeft.size ≤ n.size := by
  simp only [moveRedLeft]
  split
  · calc ((n.colorFlip.withRight n.colorFlip.right.rotateRight).rotateLeft.colorFlip).size
        ≤ (n.colorFlip.withRight n.colorFlip.right.rotateRight).size := by
          rw [size_colorFlip]; exact size_rotateLeft_le _
      _ ≤ n.colorFlip.size := size_withRight_le (size_rotateRight_le _)
      _ = n.size := size_colorFlip n
  · exact (size_colorFlip n).le

/-- Moving a red link to the right adds no node. -/
theorem size_moveRedRight_le (n : FLLRBNode κ ν) : n.moveRedRight.size ≤ n.size := by
  simp only [moveRedRight]
  split
  · rw [size_colorFlip]
    exact (size_rotateRight_le _).trans (size_colorFlip n).le
  · exact (size_colorFlip n).le

/-! ## Removal -/

/-- The node that `removeMin` goes on with. -/
def beforeRemoveMin (n : FLLRBNode κ ν) : FLLRBNode κ ν :=
  if !n.left.isRed && !n.left.left.isRed then n.moveRedLeft else n

/-- The node that `remove:` goes on with on the left. -/
def beforeLeft (n : FLLRBNode κ ν) : FLLRBNode κ ν :=
  if !n.left.isEmpty && !n.left.isRed && !n.left.left.isRed then n.moveRedLeft else n

/-- The first change `remove:` makes before it goes on with the node or on the right. -/
def leanRight (n : FLLRBNode κ ν) : FLLRBNode κ ν :=
  if n.left.isRed then n.rotateRight else n

/-- The second change `remove:` makes before it goes on with the node or on the right. -/
def beforeRight (n : FLLRBNode κ ν) : FLLRBNode κ ν :=
  if !n.right.isEmpty && !n.right.isRed && !n.right.left.isRed then n.moveRedRight else n

theorem size_beforeRemoveMin_le (n : FLLRBNode κ ν) : n.beforeRemoveMin.size ≤ n.size := by
  unfold beforeRemoveMin
  split
  · exact size_moveRedLeft_le n
  · exact le_rfl

theorem size_beforeLeft_le (n : FLLRBNode κ ν) : n.beforeLeft.size ≤ n.size := by
  unfold beforeLeft
  split
  · exact size_moveRedLeft_le n
  · exact le_rfl

theorem size_beforeRight_le (n : FLLRBNode κ ν) :
    n.leanRight.beforeRight.size ≤ n.size := by
  have hlean : n.leanRight.size ≤ n.size := by
    unfold leanRight
    split
    · exact size_rotateRight_le n
    · exact le_rfl
  unfold beforeRight
  split
  · exact (size_moveRedRight_le _).trans hlean
  · exact hlean

theorem size_left_lt {n m : FLLRBNode κ ν} (h : m.size ≤ n.size) (hn : n.isEmpty = false) :
    m.left.size < n.size := by
  cases m with
  | empty =>
    cases n with
    | empty => cases hn
    | value k v c l r => simp [left, size]
  | value k v c l r => simp only [left, size] at h ⊢; omega

/-- `removeMin`; the empty node has no such method, and none is sent to it. -/
def removeMin (n : FLLRBNode κ ν) : FLLRBNode κ ν :=
  if n.isEmpty then empty
  else if n.left.isEmpty then empty
  else (n.beforeRemoveMin.withLeft n.beforeRemoveMin.left.removeMin).fixUp
termination_by n.size
decreasing_by
  exact size_left_lt (size_beforeRemoveMin_le n) (by simp_all)

theorem size_fixUp_le (n : FLLRBNode κ ν) : n.fixUp.size ≤ n.size := by
  have hlean : n.leanLeft.size ≤ n.size := by
    unfold leanLeft; split
    · exact size_rotateLeft_le n
    · exact le_rfl
  have hbalance : n.leanLeft.balance.size ≤ n.leanLeft.size := by
    unfold balance; split
    · exact size_rotateRight_le _
    · exact le_rfl
  have hsplit : n.fixUp.size = n.leanLeft.balance.size := by
    rw [fixUp, split]; split
    · exact size_colorFlip _
    · rfl
  omega

/-- Removing the least entry adds no node. -/
theorem size_removeMin_le (n : FLLRBNode κ ν) : n.removeMin.size ≤ n.size := by
  fun_induction removeMin n with
  | case1 => simp [size]
  | case2 => simp [size]
  | case3 n hn hl ih =>
    have hle := size_beforeRemoveMin_le n
    refine (size_fixUp_le _).trans (le_trans ?_ hle)
    cases hm : n.beforeRemoveMin with
    | empty => simp [withLeft, size]
    | value k v c l r =>
      rw [hm] at ih
      simp only [withLeft, left, size] at ih ⊢
      omega

theorem size_right_lt {n m : FLLRBNode κ ν} (h : m.size ≤ n.size) (hn : n.isEmpty = false) :
    m.right.size < n.size := by
  cases m with
  | empty =>
    cases n with
    | empty => cases hn
    | value k v c l r => simp [right, size]
  | value k v c l r => simp only [right, size] at h ⊢; omega

/-- `remove:withComparator:`. -/
def remove (cmp : κ → κ → Ordering) (aKey : κ) (n : FLLRBNode κ ν) : FLLRBNode κ ν :=
  if n.isEmpty then empty
  else if n.compareKey cmp aKey = .lt then
    (n.beforeLeft.withLeft (n.beforeLeft.left.remove cmp aKey)).fixUp
  else
    let m := n.leanRight.beforeRight
    if m.compareKey cmp aKey = .eq then
      if m.right.isEmpty then empty
      else
        -- the key is looked for again below the entry that takes its place
        ((m.withEntry m.right.min).withRight (m.right.removeMin.remove cmp aKey)).fixUp
    else (m.withRight (m.right.remove cmp aKey)).fixUp
termination_by n.size
decreasing_by
  · exact size_left_lt (size_beforeLeft_le n) (by simp_all)
  · exact (size_removeMin_le _).trans_lt (size_right_lt (size_beforeRight_le n) (by simp_all))
  · exact size_right_lt (size_beforeRight_le n) (by simp_all)

/-! ## Trees that pass the check -/

/-- The invariants of a tree: no red node has a red child, only left children are red, and every
path from the root, whose color is `c`, to a leaf has `h` black nodes. An empty node counts as
black. -/
inductive Leaning : FLLRBColor → ℕ → FLLRBNode κ ν → Prop
  | empty : Leaning black 0 empty
  | red {k : κ} {v : ν} {h : ℕ} {l r : FLLRBNode κ ν} :
      Leaning black h l → Leaning black h r → Leaning red h (value k v red l r)
  | black {k : κ} {v : ν} {c : FLLRBColor} {h : ℕ} {l r : FLLRBNode κ ν} :
      Leaning c h l → Leaning black h r → Leaning black (h + 1) (value k v black l r)

/-- The color of a leaning tree is that of its root. -/
theorem Leaning.isRed_eq {c : FLLRBColor} {h : ℕ} {n : FLLRBNode κ ν} (hn : Leaning c h n) :
    n.isRed = decide (c = .red) := by
  cases hn <;> rfl

/-- A black tree is not red. -/
theorem Leaning.isRed_black {h : ℕ} {n : FLLRBNode κ ν}
    (hn : Leaning FLLRBColor.black h n) : n.isRed = false := hn.isRed_eq

/-- A leaning tree that is not red is black. -/
theorem Leaning.of_isRed_eq_false {c : FLLRBColor} {h : ℕ} {n : FLLRBNode κ ν}
    (hn : Leaning c h n) (hred : n.isRed = false) : Leaning .black h n := by
  cases c with
  | red => rw [hn.isRed_eq] at hred; cases hred
  | black => exact hn

/-- Making a black root black changes nothing. -/
theorem Leaning.withColor_black {h : ℕ} {n : FLLRBNode κ ν} (hn : Leaning .black h n) :
    Leaning .black h (n.withColor .black) := by
  cases hn with
  | empty => exact .empty
  | black hl hr => exact .black hl hr

/-- When the check of a value node passes. -/
theorem check_value_eq_ok_iff {k : κ} {v : ν} {c : FLLRBColor} {l r : FLLRBNode κ ν} {h : ℕ} :
    (value k v c l r).check = .ok h ↔
      ¬(c = red ∧ l.isRed = true) ∧ r.isRed = false ∧
        ∃ d, l.check = .ok d ∧ r.check = .ok d ∧ h = d + if c = red then 0 else 1 := by
  by_cases hred : c = red ∧ l.isRed = true
  · simp [check, hred]
  cases hright : r.isRed with
  | true => simp [check, hred, hright]
  | false =>
    rw [check, if_neg hred, if_neg (by simp [hright])]
    -- an exception below is passed on, and the two depths are compared last
    cases hl : l.check with
    | error e => simp [hred, bind, Except.bind]
    | ok dl =>
      cases hr : r.check with
      | error e => simp [hred, bind, Except.bind]
      | ok dr =>
        by_cases hd : dl = dr
        · subst hd
          simp [hred, bind, Except.bind, eq_comm (a := h)]
        · have hd' : dr ≠ dl := fun e => hd e.symm
          simp [hred, bind, Except.bind, hd, hd']

/-- A tree passes the check when it is leaning, and the check gives its depth in black nodes. -/
theorem check_eq_ok_iff {n : FLLRBNode κ ν} {h : ℕ} :
    n.check = .ok h ↔ ∃ c, Leaning c h n := by
  constructor
  · intro hcheck
    induction n generalizing h with
    | empty =>
      obtain rfl : 0 = h := Except.ok.inj hcheck
      exact ⟨.black, .empty⟩
    | value k v c l r ihl ihr =>
      obtain ⟨hred, hright, d, hl, hr, rfl⟩ := check_value_eq_ok_iff.mp hcheck
      obtain ⟨cl, hl⟩ := ihl hl
      obtain ⟨cr, hr⟩ := ihr hr
      -- a right child is never red, and below a red node neither is the left one
      have hr : Leaning .black d r := hr.of_isRed_eq_false hright
      cases c with
      | red => exact ⟨.red, .red (hl.of_isRed_eq_false (by simpa using hred)) hr⟩
      | black => exact ⟨.black, .black hl hr⟩
  · rintro ⟨c, hn⟩
    induction hn with
    | empty => rfl
    | red hl hr ihl ihr =>
      exact check_value_eq_ok_iff.mpr ⟨by simp [hl.isRed_black], hr.isRed_black, _, ihl, ihr, rfl⟩
    | black hl hr ihl ihr =>
      exact check_value_eq_ok_iff.mpr ⟨by simp, hr.isRed_black, _, ihl, ihr, rfl⟩

/-! ## Repairs keep the entries -/

@[simp] theorem entries_flipped (n : FLLRBNode κ ν) : n.flipped.entries = n.entries := by
  cases n <;> rfl

@[simp] theorem entries_withColor (c : FLLRBColor) (n : FLLRBNode κ ν) :
    (n.withColor c).entries = n.entries := by
  cases n <;> rfl

@[simp] theorem entries_colorFlip (n : FLLRBNode κ ν) : n.colorFlip.entries = n.entries := by
  cases n <;> simp [colorFlip]

/-- A rotation to the left keeps the entries when there is a right child. -/
theorem entries_rotateLeft {n : FLLRBNode κ ν} (h : n.right.isEmpty = false) :
    n.rotateLeft.entries = n.entries := by
  unfold rotateLeft
  split
  · simp
  case h_2 hn =>
    cases n with
    | empty => cases h
    | value k v c l r =>
      cases r with
      | empty => cases h
      | value k' v' c' l' r' => exact absurd rfl (hn k v c l k' v' c' l' r')

/-- A rotation to the right keeps the entries when there is a left child. -/
theorem entries_rotateRight {n : FLLRBNode κ ν} (h : n.left.isEmpty = false) :
    n.rotateRight.entries = n.entries := by
  unfold rotateRight
  split
  · simp
  case h_2 hn =>
    cases n with
    | empty => cases h
    | value k v c l r =>
      cases l with
      | empty => cases h
      | value k' v' c' l' r' => exact absurd rfl (hn k v c k' v' c' l' r' r)

/-- A red node is not empty. -/
theorem isEmpty_of_isRed {n : FLLRBNode κ ν} (h : n.isRed = true) : n.isEmpty = false := by
  cases n with
  | empty => cases h
  | value k v c l r => rfl

/-- Repairing a node keeps the entries. -/
@[simp] theorem entries_fixUp (n : FLLRBNode κ ν) : n.fixUp.entries = n.entries := by
  have hlean : n.leanLeft.entries = n.entries := by
    unfold leanLeft
    split
    · rename_i h
      exact entries_rotateLeft (isEmpty_of_isRed (by simp_all))
    · rfl
  have hbalance : n.leanLeft.balance.entries = n.leanLeft.entries := by
    unfold balance
    split
    · rename_i h
      exact entries_rotateRight (isEmpty_of_isRed (by simp_all))
    · rfl
  rw [fixUp, split]
  split
  · rw [entries_colorFlip, hbalance, hlean]
  · rw [hbalance, hlean]

/-! ## Insertion -/

section Entries

variable {cmp : κ → κ → Ordering} [Std.TransCmp cmp] [Std.LawfulEqCmp cmp]

/-- An insertion is one in the list of entries. -/
theorem entries_insertKey (aKey : κ) (aValue : ν) {n : FLLRBNode κ ν}
    (hn : SortedDict.Sorted cmp n.entries) :
    (n.insertKey cmp aKey aValue).entries = SortedDict.insert cmp aKey aValue n.entries := by
  induction n with
  | empty => rfl
  | value k v c l r ihl ihr =>
    obtain ⟨hl, hr, hlk, -⟩ := SortedDict.sorted_append_cons_iff.mp hn
    rw [insertKey, entries_value]
    cases hk : cmp aKey k with
    | lt =>
      rw [SortedDict.insert_append_of_lt hk]
      simp only [entries_fixUp, entries_value, ihl hl]
    | eq =>
      rw [SortedDict.insert_append_of_eq hlk hk]
      simp only [entries_fixUp, entries_value, Std.LawfulEqCmp.eq_of_compare hk]
    | gt =>
      rw [SortedDict.insert_append_of_gt hlk hk]
      simp only [entries_fixUp, entries_value, ihr hr]

end Entries

/-- What an insertion makes of a leaning tree of a color: a black tree may turn red, and a red
one may get a red child on its left. -/
inductive Grown : FLLRBColor → ℕ → FLLRBNode κ ν → Prop
  | black {c : FLLRBColor} {h : ℕ} {n : FLLRBNode κ ν} : Leaning c h n → Grown black h n
  | red {h : ℕ} {n : FLLRBNode κ ν} : Leaning red h n → Grown red h n
  | redRed {k : κ} {v : ν} {h : ℕ} {l r : FLLRBNode κ ν} :
      Leaning red h l → Leaning black h r → Grown red h (value k v red l r)

/-- Nothing is repaired at a node without a red right child, when its left child has no red
child or is not red. -/
theorem fixUp_eq_self {k : κ} {v : ν} {c : FLLRBColor} {l r : FLLRBNode κ ν}
    (hright : r.isRed = false) (hleft : l.isRed = false ∨ l.left.isRed = false) :
    (value k v c l r).fixUp = value k v c l r := by
  have hlean : (value k v c l r).leanLeft = value k v c l r := by simp [leanLeft, hright]
  have hbalance : (value k v c l r).balance = value k v c l r := by
    rcases hleft with h | h <;> simp [balance, h]
  simp [fixUp, hlean, hbalance, split, hright]

/-- A red right child whose sibling is not red becomes the parent. -/
theorem fixUp_rotateLeft {k k' : κ} {v v' : ν} {c : FLLRBColor} {l a b : FLLRBNode κ ν}
    (hl : l.isRed = false) (hb : b.isRed = false) :
    (value k v c l (value k' v' .red a b)).fixUp = value k' v' c (value k v .red l a) b := by
  simp [fixUp, leanLeft, balance, split, rotateLeft, hl, hb]

/-- Of two red nodes in a row on the left, the upper one becomes the parent of two black
nodes. -/
theorem fixUp_rotateRight {k k' k'' : κ} {v v' v'' : ν} {c : FLLRBColor}
    {a b m r : FLLRBNode κ ν} (hr : r.isRed = false) :
    (value k v c (value k' v' .red (value k'' v'' .red a b) m) r).fixUp =
      value k' v' c.flip (value k'' v'' .black a b) (value k v .black m r) := by
  simp [fixUp, leanLeft, balance, split, rotateRight, colorFlip, flipped, hr]

/-- Two red children are made black, and their parent changes its color. -/
theorem fixUp_colorFlip {k : κ} {v : ν} {c : FLLRBColor} {l r : FLLRBNode κ ν}
    (hl : l.isRed = true) (hll : l.left.isRed = false) (hr : r.isRed = true) :
    (value k v c l r).fixUp = value k v c.flip l.flipped r.flipped := by
  simp [fixUp, leanLeft, balance, split, colorFlip, hl, hll, hr]

/-- A red leaning tree is black and one deeper with the other color. -/
theorem Leaning.flipped {h : ℕ} {n : FLLRBNode κ ν} (hn : Leaning .red h n) :
    Leaning .black (h + 1) n.flipped := by
  cases hn with
  | red hl hr => exact .black hl hr

/-- A red leaning tree is red. -/
theorem Leaning.isRed_red {h : ℕ} {n : FLLRBNode κ ν} (hn : Leaning .red h n) :
    n.isRed = true := by
  simpa using hn.isRed_eq

/-- The left child of a red leaning tree is not red. -/
theorem Leaning.isRed_left {h : ℕ} {n : FLLRBNode κ ν} (hn : Leaning .red h n) :
    n.left.isRed = false := by
  cases hn with
  | red hl _ => exact hl.isRed_black

/-- A leaning tree, or its left child, is not red. -/
theorem Leaning.isRed_or_isRed_left {c : FLLRBColor} {h : ℕ} {n : FLLRBNode κ ν}
    (hn : Leaning c h n) : n.isRed = false ∨ n.left.isRed = false := by
  cases c with
  | red => exact .inr hn.isRed_left
  | black => exact .inl hn.isRed_black

section Repair

variable {k : κ} {v : ν} {c c' : FLLRBColor} {h : ℕ} {l r : FLLRBNode κ ν}

/-- A black node with leaning children, of which any may be red, is repaired. -/
theorem Leaning.fixUp_black (hl : Leaning c h l) (hr : Leaning c' h r) :
    ∃ d, Leaning d (h + 1) (value k v .black l r).fixUp := by
  cases c' with
  | black =>
    rw [fixUp_eq_self hr.isRed_black hl.isRed_or_isRed_left]
    exact ⟨.black, .black hl hr⟩
  | red =>
    cases c with
    | red =>
      rw [fixUp_colorFlip hl.isRed_red hl.isRed_left hr.isRed_red]
      exact ⟨.red, .red hl.flipped hr.flipped⟩
    | black =>
      cases hr with
      | red ha hb =>
        rw [fixUp_rotateLeft hl.isRed_black hb.isRed_black]
        exact ⟨.black, .black (.red hl ha) hb⟩

/-- A red node over leaning children, of which one may be red, has at most one red child after
the repair, on the left. -/
theorem Leaning.fixUp_red_left (hl : Leaning c h l) (hr : Leaning .black h r) :
    Grown .red h (value k v .red l r).fixUp := by
  rw [fixUp_eq_self hr.isRed_black hl.isRed_or_isRed_left]
  cases c with
  | red => exact .redRed hl hr
  | black => exact .red (.red hl hr)

theorem Leaning.fixUp_red_right (hl : Leaning .black h l) (hr : Leaning c h r) :
    Grown .red h (value k v .red l r).fixUp := by
  cases hr with
  | empty => exact Leaning.fixUp_red_left hl .empty
  | black ha hb => exact Leaning.fixUp_red_left hl (.black ha hb)
  | red ha hb =>
    rw [fixUp_rotateLeft hl.isRed_black hb.isRed_black]
    exact .redRed (.red hl ha) hb

/-- Two red links in a row on the left of a black node are split. -/
theorem Grown.fixUp_black (hl : Grown .red h l) (hr : Leaning .black h r) :
    ∃ d, Leaning d (h + 1) (value k v .black l r).fixUp := by
  cases hl with
  | red hl => exact hl.fixUp_black hr
  | redRed hll hlr =>
    cases hll with
    | red ha hb =>
      rw [fixUp_rotateRight hr.isRed_black]
      exact ⟨.red, .red (.black ha hb) (.black hlr hr)⟩

end Repair

/-- A leaning tree is leaning once its root is black. -/
theorem Leaning.exists_withColor_black {c : FLLRBColor} {h : ℕ} {n : FLLRBNode κ ν}
    (hn : Leaning c h n) : ∃ d, Leaning .black d (n.withColor .black) := by
  cases c with
  | black => exact ⟨h, hn.withColor_black⟩
  | red => cases hn with
    | red hl hr => exact ⟨h + 1, .black hl hr⟩

/-- An insertion keeps the tree leaning, but for a red child that a red root may get. -/
theorem grown_insertKey (cmp : κ → κ → Ordering) (aKey : κ) (aValue : ν) {c : FLLRBColor}
    {h : ℕ} {n : FLLRBNode κ ν} (hn : Leaning c h n) :
    Grown c h (n.insertKey cmp aKey aValue) := by
  induction hn with
  | empty => exact .black (.red .empty .empty)
  | @red k v h l r hl hr ihl ihr =>
    -- the children of a red node are black, so they have grown without a red root
    rw [insertKey]
    cases cmp aKey k with
    | lt => cases ihl with
      | black hl' => exact hl'.fixUp_red_left hr
    | eq => exact hl.fixUp_red_left hr
    | gt => cases ihr with
      | black hr' => exact hl.fixUp_red_right hr'
  | @black k v c h l r hl hr ihl ihr =>
    -- a black node stays one, whatever happened to the child
    have hleaning : ∀ {n : FLLRBNode κ ν}, (∃ d, Leaning d (h + 1) n) → Grown .black (h + 1) n :=
      fun ⟨_, hn⟩ => .black hn
    rw [insertKey]
    refine hleaning ?_
    cases cmp aKey k with
    | lt => cases c with
      | red => exact ihl.fixUp_black hr
      | black => cases ihl with
        | black hl' => exact hl'.fixUp_black hr
    | eq => exact hl.fixUp_black hr
    | gt => cases ihr with
      | black hr' => exact hl.fixUp_black hr'

/-- An insertion into a tree with a black root that passes the check is one in the list of
entries, and the tree passes the check once its root is black again. -/
theorem check_insertKey_eq_ok {cmp : κ → κ → Ordering} [Std.TransCmp cmp]
    [Std.LawfulEqCmp cmp] (aKey : κ) (aValue : ν) {h : ℕ} {n : FLLRBNode κ ν}
    (hn : n.check = .ok h) (hblack : n.isRed = false) (hs : SortedDict.Sorted cmp n.entries) :
    (∃ d, ((n.insertKey cmp aKey aValue).withColor .black).check = .ok d) ∧
      ((n.insertKey cmp aKey aValue).withColor .black).entries =
        SortedDict.insert cmp aKey aValue n.entries := by
  obtain ⟨c, hleaning⟩ := check_eq_ok_iff.mp hn
  have hgrown := grown_insertKey cmp aKey aValue (hleaning.of_isRed_eq_false hblack)
  refine ⟨?_, by rw [entries_withColor, entries_insertKey aKey aValue hs]⟩
  generalize n.insertKey cmp aKey aValue = m at hgrown
  cases hgrown with
  | black hm =>
    obtain ⟨d, hd⟩ := hm.exists_withColor_black
    exact ⟨d, check_eq_ok_iff.mpr ⟨.black, hd⟩⟩

/-- A third ascending key makes the root red and splits it. -/
theorem check_insertKey_eq_ok_split :
    (∃ d, (((value 2 'b' .black (value 1 'a' .red empty empty) empty).insertKey
        (compare : ℕ → ℕ → Ordering) 3 'c').withColor .black).check = .ok d) ∧
      (((value 2 'b' .black (value 1 'a' .red empty empty) empty).insertKey
        (compare : ℕ → ℕ → Ordering) 3 'c').withColor .black).entries =
          SortedDict.insert compare 3 'c' [(1, 'a'), (2, 'b')] :=
  check_insertKey_eq_ok 3 'c' rfl rfl (by decide)

end FLLRBNode

end LearnCode.FirebaseDatabase
