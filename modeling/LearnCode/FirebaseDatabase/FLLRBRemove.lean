import LearnCode.FirebaseDatabase.FLLRBNode

/-!
# Removal from left-leaning red-black trees

A removal goes down one path and keeps the node it goes on with red, or with a red child, so
that taking a node out never leaves a path short of a black node. Where a node moves a red link
into the path, its two children change color together, or one of them lends a node to the
other.

## Main definitions

* `Ready h n`: `n` is red, or black with a red left child;
* `LeftMove`, `RightMove`: what the moves make of a node over two black trees.

## Main results

* `remove_of_lt`: the second search of a removal, for a key before all others, changes neither
  the entries nor the depth nor the color;
* `removeMin_of_ready`: the least entry is taken out of a tree that is ready;
* `remove_of_ready`, `leaning_remove`: a removal is one in the list of entries, and keeps the
  tree leaning.
-/

namespace LearnCode.FirebaseDatabase.FLLRBNode

open FLLRBColor

variable {κ ν : Type}

/-! ## Moves -/

/-- A black leaning tree without a red left child is red and one less deep with the other
color. -/
theorem Leaning.flipped_of_isRed_left {h : ℕ} {n : FLLRBNode κ ν}
    (hn : Leaning .black (h + 1) n) (hleft : n.left.isRed = false) :
    Leaning .red h n.flipped := by
  cases hn with
  | black hl hr => exact .red (hl.of_isRed_eq_false hleft) hr

theorem flipped_flipped (n : FLLRBNode κ ν) : n.flipped.flipped = n := by
  cases n with
  | empty => rfl
  | value k v c l r => cases c <;> rfl

/-- A black leaning tree of positive depth is not empty. -/
theorem Leaning.isEmpty_eq_false {c : FLLRBColor} {h : ℕ} {n : FLLRBNode κ ν}
    (hn : Leaning c (h + 1) n) : n.isEmpty = false := by
  cases hn <;> rfl

/-- A black leaning tree of depth zero is empty. -/
theorem Leaning.eq_empty {n : FLLRBNode κ ν} (hn : Leaning .black 0 n) : n = .empty := by
  cases hn
  rfl

/-- `n` is red, or black with a red left child. -/
inductive Ready : ℕ → FLLRBNode κ ν → Prop
  | red {h : ℕ} {n : FLLRBNode κ ν} : Leaning .red h n → Ready h n
  | three {k : κ} {v : ν} {h : ℕ} {l r : FLLRBNode κ ν} :
      Leaning .red h l → Leaning .black h r → Ready (h + 1) (value k v .black l r)

/-- What `beforeLeft` makes of a node over two black trees of depth `h`. -/
inductive LeftMove (k : κ) (v : ν) (c : FLLRBColor) (l r : FLLRBNode κ ν) :
    ℕ → FLLRBNode κ ν → Prop
  /-- There is nothing on the left. -/
  | leaf : l = empty → r = empty → LeftMove k v c l r 0 (value k v c l r)
  /-- The left child has a red child of its own. -/
  | stay {h : ℕ} : Ready h l → l.isRed = false → LeftMove k v c l r h (value k v c l r)
  /-- The node and its children change color. -/
  | flip {h : ℕ} : Leaning .red h l.flipped → Leaning .red h r.flipped →
      LeftMove k v c l r (h + 1) (value k v c.flip l.flipped r.flipped)
  /-- The right child lends its least node. -/
  | borrow {h : ℕ} {k' : κ} {v' : ν} {a r' : FLLRBNode κ ν} : Leaning .red h l.flipped →
      Leaning .black h a → Leaning .black (h + 1) r' →
      LeftMove k v c l r (h + 1) (value k' v' c (value k v .black l.flipped a) r')

/-- What `beforeRight` makes of a node over two black trees of depth `h`. -/
inductive RightMove (k : κ) (v : ν) (c : FLLRBColor) (l r : FLLRBNode κ ν) :
    ℕ → FLLRBNode κ ν → Prop
  /-- There is nothing on the right. -/
  | leaf : l = empty → r = empty → RightMove k v c l r 0 (value k v c l r)
  /-- The right child has a red child of its own. -/
  | stay {h : ℕ} : Ready h r → r.isRed = false → RightMove k v c l r h (value k v c l r)
  /-- The node and its children change color. -/
  | flip {h : ℕ} : Leaning .red h l.flipped → Leaning .red h r.flipped →
      RightMove k v c l r (h + 1) (value k v c.flip l.flipped r.flipped)
  /-- The left child lends its greatest node. -/
  | borrow {h : ℕ} {k' : κ} {v' : ν} {d l' : FLLRBNode κ ν} : Leaning .red h r.flipped →
      Leaning .black h d → Leaning .black (h + 1) l' →
      RightMove k v c l r (h + 1) (value k' v' c l' (value k v .black d r.flipped))

section Moves

variable {k : κ} {v : ν} {c : FLLRBColor} {h : ℕ} {l r : FLLRBNode κ ν}

theorem flipped_left (n : FLLRBNode κ ν) : n.flipped.left = n.left := by
  cases n <;> rfl

/-- Over two black trees `beforeLeft` makes one of the moves. -/
theorem leftMove_beforeLeft (k : κ) (v : ν) (c : FLLRBColor) (hl : Leaning .black h l)
    (hr : Leaning .black h r) : LeftMove k v c l r h (value k v c l r).beforeLeft := by
  cases h with
  | zero =>
    have hstay : (value k v c l r).beforeLeft = value k v c l r := by
      simp [beforeLeft, hl.eq_empty, isEmpty]
    rw [hstay]
    exact .leaf hl.eq_empty hr.eq_empty
  | succ h =>
    -- a red link on the left of the left child may be taken as it is
    cases hll : l.left.isRed with
    | true =>
      have hstay : (value k v c l r).beforeLeft = value k v c l r := by
        simp [beforeLeft, hll]
      rw [hstay]
      refine .stay ?_ hl.isRed_black
      cases hl with
      | @black k' v' c' _ a b ha hb =>
        cases c' with
        | red => exact .three ha hb
        | black => simp [ha.isRed_black] at hll
    | false =>
      have hmove : (value k v c l r).beforeLeft = (value k v c l r).moveRedLeft := by
        simp [beforeLeft, hl.isEmpty_eq_false, hl.isRed_black, hll]
      have hflip := hl.flipped_of_isRed_left hll
      rw [hmove]
      cases hrl : r.left.isRed with
      | false =>
        have heq : (value k v c l r).moveRedLeft = value k v c.flip l.flipped r.flipped := by
          simp [moveRedLeft, colorFlip, flipped_left, hrl]
        rw [heq]
        exact .flip hflip (hr.flipped_of_isRed_left hrl)
      | true =>
        -- the right child has a red child, whose node comes up between the two
        cases hr with
        | @black k₁ v₁ c₁ _ b d hb hd =>
          cases hb with
          | empty => cases hrl
          | black _ _ => cases hrl
          | @red k₂ v₂ _ x y hx hy =>
            have heq : (value k v c l (value k₁ v₁ .black (value k₂ v₂ .red x y) d)).moveRedLeft =
                value k₂ v₂ c (value k v .black l.flipped x) (value k₁ v₁ .black y d) := by
              cases c <;> simp [moveRedLeft, colorFlip, flipped, rotateRight, rotateLeft, withRight]
            rw [heq]
            exact .borrow hflip hx (.black hy hd)

/-- Over two black trees `beforeRight` makes one of the moves. -/
theorem rightMove_beforeRight (k : κ) (v : ν) (c : FLLRBColor) (hl : Leaning .black h l)
    (hr : Leaning .black h r) :
    RightMove k v c l r h (value k v c l r).leanRight.beforeRight := by
  have hlean : (value k v c l r).leanRight = value k v c l r := by
    simp [leanRight, hl.isRed_black]
  rw [hlean]
  cases h with
  | zero =>
    have hstay : (value k v c l r).beforeRight = value k v c l r := by
      simp [beforeRight, hr.eq_empty, isEmpty]
    rw [hstay]
    exact .leaf hl.eq_empty hr.eq_empty
  | succ h =>
    cases hrl : r.left.isRed with
    | true =>
      have hstay : (value k v c l r).beforeRight = value k v c l r := by
        simp [beforeRight, hrl]
      rw [hstay]
      refine .stay ?_ hr.isRed_black
      cases hr with
      | @black k' v' c' _ a b ha hb =>
        cases c' with
        | red => exact .three ha hb
        | black => simp [ha.isRed_black] at hrl
    | false =>
      have hmove : (value k v c l r).beforeRight = (value k v c l r).moveRedRight := by
        simp [beforeRight, hr.isEmpty_eq_false, hr.isRed_black, hrl]
      have hflip := hr.flipped_of_isRed_left hrl
      rw [hmove]
      cases hll : l.left.isRed with
      | false =>
        have heq : (value k v c l r).moveRedRight = value k v c.flip l.flipped r.flipped := by
          simp [moveRedRight, colorFlip, flipped_left, hll]
        rw [heq]
        exact .flip (hl.flipped_of_isRed_left hll) hflip
      | true =>
        -- the left child comes up, and its red child is the new left child
        cases hl with
        | @black k₁ v₁ c₁ _ b d hb hd =>
          cases hb with
          | empty => cases hll
          | black _ _ => cases hll
          | @red k₂ v₂ _ x y hx hy =>
            have heq : (value k v c (value k₁ v₁ .black (value k₂ v₂ .red x y) d) r).moveRedRight =
                value k₁ v₁ c (value k₂ v₂ .black x y) (value k v .black d r.flipped) := by
              cases c <;> simp [moveRedRight, colorFlip, flipped, rotateRight]
            rw [heq]
            exact .borrow hflip hd (.black hx hy)

end Moves

/-! ## Moves keep the entries -/

/-- A new right child with the same entries changes no entry. -/
theorem entries_withRight {n r : FLLRBNode κ ν} (h : r.entries = n.right.entries) :
    (n.withRight r).entries = n.entries := by
  cases n with
  | empty => rfl
  | value k v c l r' => simpa [withRight] using h

/-- The entries with a new left child: those of the child, and then the same rest. -/
theorem exists_entries_withLeft {n : FLLRBNode κ ν} (h : n.isEmpty = false) :
    ∃ e rest, n.entries = n.left.entries ++ e :: rest ∧
      ∀ l, (n.withLeft l).entries = l.entries ++ e :: rest := by
  cases n with
  | empty => cases h
  | value k v c l r => exact ⟨(k, v), r.entries, rfl, fun _ => rfl⟩

theorem right_withRight {n : FLLRBNode κ ν} (r : FLLRBNode κ ν) (h : n.isEmpty = false) :
    (n.withRight r).right = r := by
  cases n with
  | empty => cases h
  | value k v c l r' => rfl

theorem isEmpty_eq_isEmpty_entries (n : FLLRBNode κ ν) : n.isEmpty = n.entries.isEmpty := by
  cases n <;> simp [isEmpty]

/-- A node with a child is not empty. -/
theorem isEmpty_of_isEmpty_right {n : FLLRBNode κ ν} (h : n.right.isEmpty = false) :
    n.isEmpty = false := by
  cases n with
  | empty => cases h
  | value k v c l r => rfl

theorem isEmpty_of_isEmpty_left {n : FLLRBNode κ ν} (h : n.left.isEmpty = false) :
    n.isEmpty = false := by
  cases n with
  | empty => cases h
  | value k v c l r => rfl

@[simp] theorem entries_moveRedLeft (n : FLLRBNode κ ν) : n.moveRedLeft.entries = n.entries := by
  simp only [moveRedLeft]
  split
  case isTrue hred =>
    have hleft := isEmpty_of_isRed hred
    have hrot := entries_rotateRight hleft
    have hright : n.colorFlip.right.rotateRight.isEmpty = false := by
      rw [isEmpty_eq_isEmpty_entries, hrot, ← isEmpty_eq_isEmpty_entries]
      exact isEmpty_of_isEmpty_left hleft
    have hne := isEmpty_of_isEmpty_right (isEmpty_of_isEmpty_left hleft)
    rw [entries_colorFlip, entries_rotateLeft (by rwa [right_withRight _ hne]),
      entries_withRight hrot, entries_colorFlip]
  case isFalse => exact entries_colorFlip n

@[simp] theorem entries_moveRedRight (n : FLLRBNode κ ν) :
    n.moveRedRight.entries = n.entries := by
  simp only [moveRedRight]
  split
  case isTrue hred =>
    have hleft := isEmpty_of_isEmpty_left (isEmpty_of_isRed hred)
    rw [entries_colorFlip, entries_rotateRight hleft, entries_colorFlip]
  case isFalse => exact entries_colorFlip n

/-- The move before a removal on the left keeps the entries. -/
@[simp] theorem entries_beforeLeft (n : FLLRBNode κ ν) : n.beforeLeft.entries = n.entries := by
  unfold beforeLeft
  split <;> simp

/-- The moves before a removal on the right keep the entries. -/
@[simp] theorem entries_beforeRight (n : FLLRBNode κ ν) :
    n.leanRight.beforeRight.entries = n.entries := by
  have hlean : n.leanRight.entries = n.entries := by
    unfold leanRight
    split
    case isTrue hred => exact entries_rotateRight (isEmpty_of_isRed hred)
    case isFalse => rfl
  unfold beforeRight
  split <;> simp [hlean]

/-- Below a red left child nothing moves before a removal on the left. -/
theorem beforeLeft_of_isRed {k : κ} {v : ν} {c : FLLRBColor} {l r : FLLRBNode κ ν}
    (hl : l.isRed = true) : (value k v c l r).beforeLeft = value k v c l r := by
  simp [beforeLeft, hl]

/-! ## Repairs after a move -/

/-- What a removal makes of a tree of depth `h`: one of the same depth, which is black when the
tree was not red. -/
def Shrunk (h : ℕ) (n m : FLLRBNode κ ν) : Prop :=
  ∃ c, Leaning c h m ∧ (n.isRed = false → c = .black)

/-- What is left of a black tree is black. -/
theorem Shrunk.leaning_black {h : ℕ} {n m : FLLRBNode κ ν} (hm : Shrunk h n m)
    (hn : n.isRed = false) : Leaning .black h m := by
  obtain ⟨c, hleaning, hblack⟩ := hm
  exact hblack hn ▸ hleaning

theorem Ready.isEmpty_eq_false {h : ℕ} {n : FLLRBNode κ ν} (hn : Ready h n) :
    n.isEmpty = false := by
  cases hn with
  | red hn => exact isEmpty_of_isRed hn.isRed_red
  | three _ _ => rfl

/-- What a removal makes of a node of color `c` over two black trees of depth `h`, once one of
its children has changed. -/
inductive Repaired (c : FLLRBColor) : ℕ → FLLRBNode κ ν → Prop
  | same {k : κ} {v : ν} {h : ℕ} {l r : FLLRBNode κ ν} :
      Leaning .black h l → Leaning .black h r → Repaired c h (value k v c l r)
  | flipped {k : κ} {v : ν} {h : ℕ} {c₁ c₂ : FLLRBColor} {l r : FLLRBNode κ ν} :
      Leaning c₁ h l → Leaning c₂ h r → Repaired c (h + 1) (value k v c.flip l r).fixUp
  | gone : Repaired c 0 empty

/-- A red node is repaired to a leaning tree. -/
theorem Repaired.leaning {h : ℕ} {n : FLLRBNode κ ν} (hn : Repaired .red h n) :
    ∃ c, Leaning c h n := by
  cases hn with
  | gone => exact ⟨.black, .empty⟩
  | same hl hr => exact ⟨.red, .red hl hr⟩
  | flipped hl hr => exact hl.fixUp_black hr

/-- A tree that has grown is leaning once its root is black. -/
theorem Grown.withColor_black {h : ℕ} {n : FLLRBNode κ ν} (hn : Grown .red h n) :
    Leaning .black (h + 1) (n.withColor .black) := by
  cases hn with
  | red hn => cases hn with
    | red hl hr => exact .black hl hr
  | redRed hl hr => exact .black hl hr

/-- A black root is repaired to a tree that is leaning once its root is black. -/
theorem Repaired.withColor_black {h : ℕ} {n : FLLRBNode κ ν} (hn : Repaired .black h n) :
    ∃ d, Leaning .black d (n.withColor .black) := by
  cases hn with
  | gone => exact ⟨0, .empty⟩
  | same hl hr => exact ⟨_, .black hl hr⟩
  | @flipped k v h c₁ c₂ l r hl hr =>
    cases c₂ with
    | black => exact ⟨_, (hl.fixUp_red_left hr).withColor_black⟩
    | red =>
      cases c₁ with
      | black => exact ⟨_, (hl.fixUp_red_right hr).withColor_black⟩
      | red =>
        rw [flip_black, fixUp_colorFlip hl.isRed_red hl.isRed_left hr.isRed_red]
        exact ⟨_, .black hl.flipped hr.flipped⟩

section Repair

variable {k : κ} {v : ν} {c : FLLRBColor} {h : ℕ} {l r m : FLLRBNode κ ν}

/-- After a move to the left, a node whose left child has changed is repaired. -/
theorem LeftMove.repaired (hm : LeftMove k v c l r h m) (hr : Leaning .black h r)
    {l' : FLLRBNode κ ν} (hempty : m.left = empty → l' = empty)
    (hready : ∀ {d}, Ready d m.left → Shrunk d m.left l') :
    Repaired c h (m.withLeft l').fixUp := by
  cases hm with
  | leaf hl0 hr0 =>
    -- a node without children has none afterwards
    obtain rfl : l' = empty := hempty hl0
    subst hr0
    have heq : (value k v c empty empty).fixUp = value k v c empty empty :=
      fixUp_eq_self rfl (.inl rfl)
    rw [withLeft, heq]
    exact .same .empty .empty
  | stay hl hblack =>
    -- nothing was moved, and the child keeps its black depth
    have hl' : Leaning .black h l' := (hready hl).leaning_black hblack
    rw [withLeft, fixUp_eq_self hr.isRed_black (.inl hl'.isRed_black)]
    exact .same hl' hr
  | flip hlf hrf =>
    -- the colours were flipped, and fixUp may have to flip them back
    obtain ⟨_, hl', -⟩ := hready (.red hlf)
    exact .flipped hl' hrf
  | borrow hlf ha hr' =>
    -- the left child took a node over from the right one
    have hl' := (hready (.three hlf ha)).leaning_black rfl
    rw [withLeft, fixUp_eq_self hr'.isRed_black (.inl hl'.isRed_black)]
    exact .same hl' hr'

/-- After a move to the left, the left child is ready, or there was none. -/
theorem LeftMove.ready_left (hm : LeftMove k v c l r h m) :
    (l = empty ∧ m.left = empty) ∨ ∃ d, Ready d m.left := by
  cases hm with
  | leaf hl0 _ => exact .inl ⟨hl0, hl0⟩
  | stay hl _ => exact .inr ⟨_, hl⟩
  | flip hlf _ => exact .inr ⟨_, .red hlf⟩
  | borrow hlf ha _ => exact .inr ⟨_, .three hlf ha⟩

end Repair

/-! ## A key before all others -/

section Remove

variable {cmp : κ → κ → Ordering} {aKey : κ}

/-- A removal on the left of a node. -/
theorem remove_value_of_lt {k : κ} {v : ν} {c : FLLRBColor} {l r : FLLRBNode κ ν}
    (h : cmp aKey k = .lt) {k' : κ} {v' : ν} {c' : FLLRBColor} {l' r' : FLLRBNode κ ν}
    (hm : (value k v c l r).beforeLeft = value k' v' c' l' r') :
    (value k v c l r).remove cmp aKey = (value k' v' c' (l'.remove cmp aKey) r').fixUp := by
  rw [remove]
  simp [compareKey, h, hm, withLeft]

theorem remove_empty : (empty : FLLRBNode κ ν).remove cmp aKey = empty := by
  rw [remove]
  rfl

/-- The left child of what the move on the left makes is smaller. -/
theorem size_lt_of_beforeLeft_eq {k : κ} {v : ν} {c : FLLRBColor} {l r : FLLRBNode κ ν}
    {k' : κ} {v' : ν} {c' : FLLRBColor} {l' r' : FLLRBNode κ ν}
    (hm : (value k v c l r).beforeLeft = value k' v' c' l' r') :
    l'.size < (value k v c l r).size := by
  have h := size_left_lt (size_beforeLeft_le (value k v c l r)) rfl
  rwa [hm] at h

/-- A removal of a key before all others, as it follows the one that put a least node in place
of a removed one, changes neither the entries nor the color nor the depth. -/
theorem remove_of_lt {c : FLLRBColor} {h : ℕ} {n : FLLRBNode κ ν} (hn : Leaning c h n)
    (hlt : ∀ e ∈ n.entries, cmp aKey e.1 = .lt) :
    Leaning c h (n.remove cmp aKey) ∧ (n.remove cmp aKey).entries = n.entries := by
  induction hN : n.size using Nat.strong_induction_on generalizing n c h with
  | _ N ih =>
  cases n with
  | empty => rw [remove_empty]; exact ⟨hn, rfl⟩
  | value k v c₀ l r =>
    have hk : cmp aKey k = .lt := hlt (k, v) (by simp)
    subst hN
    -- what goes on below the moved node changes no entry of it
    have step : ∀ {k' v' c' l' r' d h'},
        (value k v c₀ l r).beforeLeft = value k' v' c' l' r' → Leaning d h' l' →
        Leaning d h' (l'.remove cmp aKey) ∧
          (value k v c₀ l r).remove cmp aKey =
            (value k' v' c' (l'.remove cmp aKey) r').fixUp ∧
          ((value k v c₀ l r).remove cmp aKey).entries = (value k v c₀ l r).entries := by
      intro k' v' c' l' r' d h' hm hl'
      have hentries : (value k' v' c' l' r').entries = (value k v c₀ l r).entries := by
        rw [← hm, entries_beforeLeft]
      obtain ⟨hleaning, hsame⟩ := ih _ (size_lt_of_beforeLeft_eq hm) hl'
        (fun e he => hlt e (hentries ▸ by simp [he])) rfl
      refine ⟨hleaning, remove_value_of_lt hk hm, ?_⟩
      rw [remove_value_of_lt hk hm, entries_fixUp, entries_value, hsame, ← entries_value, hentries]
    cases hlred : l.isRed with
    | true =>
      cases hn with
      | red hl hr => simp [hl.isRed_black] at hlred
      | black hl hr =>
        obtain ⟨hl', heq, hentries⟩ := step (beforeLeft_of_isRed hlred) hl
        rw [fixUp_eq_self hr.isRed_black hl'.isRed_or_isRed_left] at heq
        exact ⟨heq ▸ .black hl' hr, hentries⟩
    | false =>
      have hover : ∃ d, Leaning .black d l ∧ Leaning .black d r ∧
          ∀ {k' : κ} {v' : ν} {l' r' : FLLRBNode κ ν}, Leaning .black d l' → Leaning .black d r' →
            Leaning c h (value k' v' c₀ l' r') := by
        cases hn with
        | red hl hr => exact ⟨_, hl, hr, fun hl' hr' => .red hl' hr'⟩
        | black hl hr =>
          exact ⟨_, hl.of_isRed_eq_false hlred, hr, fun hl' hr' => .black hl' hr'⟩
      obtain ⟨d, hl, hr, hroot⟩ := hover
      have hmove := leftMove_beforeLeft k v c₀ hl hr
      generalize hm : (value k v c₀ l r).beforeLeft = m at hmove
      cases hmove with
      | leaf hl0 hr0 =>
        obtain ⟨hl', heq, hentries⟩ := step hm hl
        rw [fixUp_eq_self hr.isRed_black (.inl hl'.isRed_black)] at heq
        exact ⟨heq ▸ hroot hl' hr, hentries⟩
      | stay _ _ =>
        obtain ⟨hl', heq, hentries⟩ := step hm hl
        rw [fixUp_eq_self hr.isRed_black (.inl hl'.isRed_black)] at heq
        exact ⟨heq ▸ hroot hl' hr, hentries⟩
      | flip hlf hrf =>
        -- the colors change back
        obtain ⟨hl', heq, hentries⟩ := step hm hlf
        rw [fixUp_colorFlip hl'.isRed_red hl'.isRed_left hrf.isRed_red, flipped_flipped] at heq
        have hflip : c₀.flip.flip = c₀ := by cases c₀ <;> rfl
        rw [hflip] at heq
        exact ⟨heq ▸ hroot hl'.flipped hr, hentries⟩
      | borrow hlf ha hr' =>
        obtain ⟨hl', heq, hentries⟩ := step hm (.black hlf ha)
        rw [fixUp_eq_self hr'.isRed_black (.inl hl'.isRed_black)] at heq
        exact ⟨heq ▸ hroot hl' hr', hentries⟩

end Remove

/-! ## The least entry -/

/-- The least node has no left child, and its entry is the first. -/
theorem min_eq {n : FLLRBNode κ ν} (hn : n.isEmpty = false) :
    ∃ k v c r es, n.min = value k v c empty r ∧ n.entries = (k, v) :: es := by
  induction n with
  | empty => cases hn
  | value k v c l r ihl ihr =>
    cases l with
    | empty => exact ⟨k, v, c, r, r.entries, rfl, rfl⟩
    | value k' v' c' l' r' =>
      obtain ⟨k₁, v₁, c₁, r₁, es, hmin, hentries⟩ := ihl rfl
      exact ⟨k₁, v₁, c₁, r₁, es ++ (k, v) :: r.entries, hmin, by rw [entries_value, hentries]; rfl⟩

/-- With a left child, the move before the removal of the least entry is the one before a
removal on the left. -/
theorem beforeRemoveMin_eq {n : FLLRBNode κ ν} (h : n.left.isEmpty = false) :
    n.beforeRemoveMin = n.beforeLeft := by
  simp [beforeRemoveMin, beforeLeft, h]

/-- The least entry is taken out of a tree that is ready, and the tree keeps its depth. -/
theorem removeMin_of_ready {h : ℕ} {n : FLLRBNode κ ν} (hn : Ready h n) :
    Shrunk h n n.removeMin ∧ n.removeMin.entries = n.entries.tail := by
  induction hN : n.size using Nat.strong_induction_on generalizing n h with
  | _ N ih =>
  subst hN
  have hne := hn.isEmpty_eq_false
  cases hleft : n.left.isEmpty with
  | true =>
    have hmin : n.removeMin = empty := by rw [removeMin]; simp [hne, hleft]
    rw [hmin]
    cases hn with
    | three hl hr => simp [isEmpty_of_isRed hl.isRed_red] at hleft
    | red hn =>
      -- without a left child the node is a red leaf
      cases hn with
      | red hl hr =>
        cases hl with
        | empty =>
          rw [hr.eq_empty]
          exact ⟨⟨.black, .empty, fun _ => rfl⟩, rfl⟩
        | black _ _ => cases hleft
  | false =>
    have hmin : n.removeMin =
        (n.beforeLeft.withLeft n.beforeLeft.left.removeMin).fixUp := by
      rw [removeMin]; simp [hne, hleft, beforeRemoveMin_eq hleft]
    have hlt : n.beforeLeft.left.size < n.size :=
      size_left_lt (size_beforeLeft_le n) hne
    have hsub : ∀ {d}, Ready d n.beforeLeft.left →
        Shrunk d n.beforeLeft.left n.beforeLeft.left.removeMin ∧
          n.beforeLeft.left.removeMin.entries = n.beforeLeft.left.entries.tail :=
      fun hd => ih _ hlt hd rfl
    have hentries : (∃ d, Ready d n.beforeLeft.left) →
        n.removeMin.entries = n.entries.tail := by
      rintro ⟨d, hd⟩
      obtain ⟨e, rest, hm, hwith⟩ :=
        exists_entries_withLeft (isEmpty_of_isEmpty_left hd.isEmpty_eq_false)
      have hcons : n.beforeLeft.left.entries ≠ [] := by
        have := hd.isEmpty_eq_false
        rw [isEmpty_eq_isEmpty_entries] at this
        simpa using this
      rw [hmin, entries_fixUp, hwith, (hsub hd).2, ← entries_beforeLeft n, hm,
        List.tail_append_of_ne_nil hcons]
    cases hn with
    | red hn =>
      cases hn with
      | @red k v _ l r hl hr =>
        have hmove := leftMove_beforeLeft k v .red hl hr
        have hready := hmove.ready_left.resolve_left fun h => by
          rw [left_value, h.1] at hleft
          cases hleft
        refine ⟨?_, hentries hready⟩
        obtain ⟨d, hd⟩ := hready
        obtain ⟨c, hc⟩ := (hmove.repaired hr
          (fun h => by rw [h] at hd; exact absurd hd.isEmpty_eq_false (by simp [isEmpty]))
          (fun hd => (hsub hd).1)).leaning
        exact ⟨c, hmin ▸ hc, fun h => by cases h⟩
    | @three k v h l r hl hr =>
      have hmove := beforeLeft_of_isRed (k := k) (v := v) (c := .black) (r := r) hl.isRed_red
      rw [hmove] at hsub hmin hentries
      obtain ⟨⟨c, hl', -⟩, -⟩ := hsub (.red hl)
      refine ⟨⟨.black, ?_, fun _ => rfl⟩, hentries ⟨_, .red hl⟩⟩
      rw [hmin, withLeft, fixUp_eq_self hr.isRed_black hl'.isRed_or_isRed_left]
      exact .black hl' hr

/-! ## Removal of a key -/

/-- A removal on the right side of a node, or of its own key. -/
theorem remove_value_of_not_lt {cmp : κ → κ → Ordering} {aKey k : κ} {v : ν} {c : FLLRBColor}
    {l r : FLLRBNode κ ν} (h : cmp aKey k ≠ .lt) {k' : κ} {v' : ν} {c' : FLLRBColor}
    {l' r' : FLLRBNode κ ν} (hm : (value k v c l r).leanRight.beforeRight = value k' v' c' l' r') :
    (value k v c l r).remove cmp aKey =
      if cmp aKey k' = .eq then
        if r'.isEmpty then empty
        else (((value k' v' c' l' r').withEntry r'.min).withRight
          (r'.removeMin.remove cmp aKey)).fixUp
      else (value k' v' c' l' (r'.remove cmp aKey)).fixUp := by
  rw [remove]
  simp [compareKey, h, hm, withRight]

section Remove

variable {cmp : κ → κ → Ordering} [Std.TransCmp cmp] {aKey : κ}

/-- The node a removal of `aKey` goes on with: one that is ready, or a black node with a red
right child when the key is not on its left. -/
inductive ReadyFor (cmp : κ → κ → Ordering) (aKey : κ) : ℕ → FLLRBNode κ ν → Prop
  | ready {h : ℕ} {n : FLLRBNode κ ν} : Ready h n → ReadyFor cmp aKey h n
  | right {k : κ} {v : ν} {h : ℕ} {l r : FLLRBNode κ ν} : cmp aKey k ≠ .lt →
      Leaning .black h l → Leaning .red h r → ReadyFor cmp aKey (h + 1) (value k v .black l r)

/-- What a removal on the left leaves of the entries. -/
theorem entries_left {n l'' : FLLRBNode κ ν} {k : κ} {v : ν} {c : FLLRBColor}
    {l r : FLLRBNode κ ν} (hn : SortedDict.Sorted cmp n.entries)
    (hm : (value k v c l r).entries = n.entries) (hlt : cmp aKey k = .lt)
    (hl : l''.entries = SortedDict.remove cmp aKey l.entries) :
    (value k v c l'' r).fixUp.entries = SortedDict.remove cmp aKey n.entries := by
  rw [← hm] at hn ⊢
  obtain ⟨-, -, -, hkr⟩ := SortedDict.sorted_append_cons_iff.mp hn
  rw [entries_fixUp, entries_value, entries_value, hl, SortedDict.remove_append_of_lt hkr hlt]

/-- What a removal on the right leaves of the entries. -/
theorem entries_right {n r'' : FLLRBNode κ ν} {k : κ} {v : ν} {c : FLLRBColor}
    {l r : FLLRBNode κ ν} (hn : SortedDict.Sorted cmp n.entries)
    (hm : (value k v c l r).entries = n.entries) (hgt : cmp aKey k = .gt)
    (hr : r''.entries = SortedDict.remove cmp aKey r.entries) :
    (value k v c l r'').fixUp.entries = SortedDict.remove cmp aKey n.entries := by
  rw [← hm] at hn ⊢
  obtain ⟨-, -, hlk, -⟩ := SortedDict.sorted_append_cons_iff.mp hn
  rw [entries_fixUp, entries_value, entries_value, hr, SortedDict.remove_append_of_gt hlk hgt]

omit [Std.TransCmp cmp] in
/-- A tree that is ready has no red child on the right. -/
theorem Ready.ready_of_readyFor {d h : ℕ} {n : FLLRBNode κ ν} (hn : Ready d n)
    (hfor : ReadyFor cmp aKey h n) : Ready h n := by
  cases hfor with
  | ready hn' => exact hn'
  | right _ hl hr =>
    cases hn with
    | red hn => cases hn
    | three hl' hr' => exact absurd hr'.isRed_black (by simp [hr.isRed_red])

/-- When the key of a node is removed, the least entry on its right goes in its place. -/
theorem remove_key {n : FLLRBNode κ ν} {k : κ} {v : ν} {c : FLLRBColor}
    {l r : FLLRBNode κ ν} (hn : SortedDict.Sorted cmp n.entries)
    (hm : (value k v c l r).entries = n.entries) (heq : cmp aKey k = .eq)
    (hr : ∃ h, Ready h r) :
    (∀ {h}, Ready h r → Shrunk h r (r.removeMin.remove cmp aKey)) ∧
      ∃ k' v', (((value k v c l r).withEntry r.min).withRight
          (r.removeMin.remove cmp aKey)).fixUp =
        (value k' v' c l (r.removeMin.remove cmp aKey)).fixUp ∧
      (value k' v' c l (r.removeMin.remove cmp aKey)).fixUp.entries =
        SortedDict.remove cmp aKey n.entries := by
  obtain ⟨h, hr⟩ := hr
  have htail := (removeMin_of_ready hr).2
  obtain ⟨k', v', c', r₁, es, hmin, hes⟩ := min_eq hr.isEmpty_eq_false
  rw [← hm] at hn ⊢
  obtain ⟨-, -, hlk, hkr⟩ := SortedDict.sorted_append_cons_iff.mp hn
  -- the removed key is before all entries on the right
  have hlt : ∀ e ∈ r.removeMin.entries, cmp aKey e.1 = .lt := by
    intro e he
    rw [htail] at he
    exact Std.TransCmp.lt_of_eq_of_lt heq (hkr e (List.mem_of_mem_tail he))
  constructor
  · intro h hr
    obtain ⟨⟨d, hd, hblack⟩, -⟩ := removeMin_of_ready hr
    exact ⟨d, (remove_of_lt hd hlt).1, hblack⟩
  · obtain ⟨⟨d, hd, -⟩, -⟩ := removeMin_of_ready hr
    refine ⟨k', v', by rw [hmin, withEntry, withRight], ?_⟩
    rw [entries_fixUp, entries_value, entries_value, (remove_of_lt hd hlt).2, htail,
      SortedDict.remove_append_of_eq hlk hkr heq, hes, List.tail_cons]

section Over

variable {k k' : κ} {v v' : ν} {c c' : FLLRBColor} {h : ℕ} {l r l' r' : FLLRBNode κ ν}

/-- A key on the left of a node is on the left of what the move to the left makes of it. -/
theorem LeftMove.lt (hm : LeftMove k v c l r h (value k' v' c' l' r'))
    (hs : SortedDict.Sorted cmp (value k' v' c' l' r').entries) (hlt : cmp aKey k = .lt) :
    cmp aKey k' = .lt := by
  cases hm with
  | leaf _ _ => exact hlt
  | stay _ _ => exact hlt
  | flip _ _ => exact hlt
  | borrow _ _ _ =>
    -- the node has become the left child of the one that was lent
    obtain ⟨-, -, hleft, -⟩ := SortedDict.sorted_append_cons_iff.mp hs
    exact Std.TransCmp.lt_trans hlt (hleft (k, v) (by simp))

/-- After a move to the right, the key is that of the node, or on the right of what was lent.
What the removal goes on with on the right is empty or ready. -/
theorem RightMove.ready_right (hm : RightMove k v c l r h (value k' v' c' l' r'))
    (hs : SortedDict.Sorted cmp (value k' v' c' l' r').entries) (hlt : cmp aKey k ≠ .lt) :
    (cmp aKey k' = .gt ∧ ∃ d, ReadyFor cmp aKey d r') ∨
      (cmp aKey k' ≠ .lt ∧ (r' = empty ∨ ∃ d, Ready d r')) := by
  cases hm with
  | leaf _ hr0 => exact .inr ⟨hlt, .inl hr0⟩
  | stay hr _ => exact .inr ⟨hlt, .inr ⟨_, hr⟩⟩
  | flip _ hrf => exact .inr ⟨hlt, .inr ⟨_, .red hrf⟩⟩
  | borrow hrf hd _ =>
    obtain ⟨-, -, -, hright⟩ := SortedDict.sorted_append_cons_iff.mp hs
    have hk : cmp k' k = .lt := hright (k, v) (by simp)
    exact .inl ⟨SortedDict.gt_of_lt_of_not_lt (e := (k, v)) hlt hk, _, .right hlt hd hrf⟩

omit [Std.TransCmp cmp] in
/-- Where nothing is on the right after a move, nothing was on the left. -/
theorem RightMove.eq_empty (hm : RightMove k v c l r h (value k' v' c' l' r'))
    (hr0 : r' = empty) : h = 0 ∧ l' = empty := by
  cases hm with
  | leaf hl0 _ => exact ⟨rfl, hl0⟩
  | stay hr _ => exact absurd hr.isEmpty_eq_false (by simp [hr0, isEmpty])
  | flip _ hrf => exact absurd (isEmpty_of_isRed hrf.isRed_red) (by simp [hr0, isEmpty])
  | borrow _ _ _ => cases hr0

omit [Std.TransCmp cmp] in
/-- After a move to the right, a node whose right child has changed is repaired. -/
theorem RightMove.repaired (hm : RightMove k v c l r h (value k' v' c' l' r'))
    (hl : Leaning .black h l) (hlt : cmp aKey k ≠ .lt) (k'' : κ) (v'' : ν)
    {r'' : FLLRBNode κ ν} (hempty : r' = empty → r'' = empty)
    (hready : ∀ {d}, ReadyFor cmp aKey d r' → Shrunk d r' r'') :
    Repaired c h (value k'' v'' c' l' r'').fixUp := by
  cases hm with
  | leaf hl0 hr0 =>
    obtain rfl := hempty hr0
    subst hl0
    rw [fixUp_eq_self rfl (.inl rfl)]
    exact .same .empty .empty
  | stay hr hblack =>
    have hr'' := (hready (.ready hr)).leaning_black hblack
    rw [fixUp_eq_self hr''.isRed_black (.inl hl.isRed_black)]
    exact .same hl hr''
  | flip hlf hrf =>
    -- the colours were flipped, and fixUp may have to flip them back
    obtain ⟨_, hr'', -⟩ := hready (.ready (.red hrf))
    exact .flipped hlf hr''
  | borrow hrf hd hl' =>
    -- the right child took a node over from the left one
    have hr'' := (hready (.right hlt hd hrf)).leaning_black rfl
    rw [fixUp_eq_self hr''.isRed_black (.inl hl'.isRed_black)]
    exact .same hl' hr''

/-- A comparison with neither of the other results. -/
theorem eq_gt_of_ne {o : Ordering} (hlt : o ≠ .lt) (heq : o ≠ .eq) : o = .gt := by
  cases o with
  | lt => exact absurd rfl hlt
  | eq => exact absurd rfl heq
  | gt => rfl

/-- A removal from a node over two black trees, from what it does to smaller trees. -/
theorem remove_over (hs : SortedDict.Sorted cmp (value k v c l r).entries)
    (hl : Leaning .black h l) (hr : Leaning .black h r)
    (ih : ∀ m : FLLRBNode κ ν, m.size < (value k v c l r).size →
      SortedDict.Sorted cmp m.entries → ∀ d, ReadyFor cmp aKey d m →
      Shrunk d m (m.remove cmp aKey) ∧
        (m.remove cmp aKey).entries = SortedDict.remove cmp aKey m.entries) :
    Repaired c h ((value k v c l r).remove cmp aKey) ∧
      ((value k v c l r).remove cmp aKey).entries =
        SortedDict.remove cmp aKey (value k v c l r).entries := by
  by_cases hlt : cmp aKey k = .lt
  · -- the key is looked for on the left of what the move leaves
    have hmove := leftMove_beforeLeft k v c hl hr
    have hentries := entries_beforeLeft (value k v c l r)
    have hsize := size_left_lt (size_beforeLeft_le (value k v c l r)) rfl
    generalize hm : (value k v c l r).beforeLeft = m at hmove hentries hsize
    cases m with
    | empty => cases hmove
    | value k' v' c' l' r' =>
      have hs' : SortedDict.Sorted cmp (value k' v' c' l' r').entries := hentries ▸ hs
      have hsl := (SortedDict.sorted_append_cons_iff.mp hs').1
      have hleft : (l'.remove cmp aKey).entries = SortedDict.remove cmp aKey l'.entries := by
        rcases hmove.ready_left with ⟨-, hl0⟩ | ⟨d, hd⟩
        · rw [show l' = empty from hl0, remove_empty]; rfl
        · exact (ih l' hsize hsl d (.ready hd)).2
      rw [remove_value_of_lt hlt hm]
      exact ⟨hmove.repaired hr (fun h0 => by rw [show l' = empty from h0, remove_empty])
        (fun hd => (ih l' hsize hsl _ (.ready hd)).1),
        entries_left hs hentries (hmove.lt hs' hlt) hleft⟩
  · -- the move may have brought another node up, so the key is compared again
    have hmove := rightMove_beforeRight k v c hl hr
    have hentries := entries_beforeRight (value k v c l r)
    have hsize := size_right_lt (size_beforeRight_le (value k v c l r)) rfl
    generalize hm : (value k v c l r).leanRight.beforeRight = m at hmove hentries hsize
    cases m with
    | empty => cases hmove
    | value k' v' c' l' r' =>
      have hs' : SortedDict.Sorted cmp (value k' v' c' l' r').entries := hentries ▸ hs
      have hsr := (SortedDict.sorted_append_cons_iff.mp hs').2.1
      rw [remove_value_of_not_lt hlt hm]
      have hready := hmove.ready_right hs' hlt
      by_cases heq : cmp aKey k' = .eq
      · rw [if_pos heq]
        rcases hready with ⟨hgt, -⟩ | ⟨-, hr0 | hr'⟩
        · rw [heq] at hgt; cases hgt
        · -- the key is found in a leaf
          obtain ⟨rfl, rfl⟩ := hmove.eq_empty hr0
          rw [if_pos (by simp [hr0, isEmpty]), ← hentries, hr0]
          exact ⟨.gone, by simp [SortedDict.remove, heq]⟩
        · -- the least entry on the right takes the place of the removed one
          obtain ⟨d, hd⟩ := hr'
          obtain ⟨hshrunk, k'', v'', hnode, hrest⟩ := remove_key hs hentries heq ⟨d, hd⟩
          rw [if_neg (by simp [hd.isEmpty_eq_false]), hnode]
          exact ⟨hmove.repaired hl hlt k'' v''
            (fun h0 => absurd hd.isEmpty_eq_false (by simp [h0, isEmpty]))
            (fun hfor => hshrunk (hd.ready_of_readyFor hfor)), hrest⟩
      · rw [if_neg heq]
        have hgt : cmp aKey k' = .gt := by
          rcases hready with ⟨hgt, -⟩ | ⟨hne, -⟩
          · exact hgt
          · exact eq_gt_of_ne hne heq
        have hright : (r'.remove cmp aKey).entries = SortedDict.remove cmp aKey r'.entries := by
          rcases hready with ⟨-, d, hd⟩ | ⟨-, hr0 | ⟨d, hd⟩⟩
          · exact (ih r' hsize hsr d hd).2
          · rw [hr0, remove_empty]; rfl
          · exact (ih r' hsize hsr d (.ready hd)).2
        exact ⟨hmove.repaired hl hlt k' v' (fun h0 => by rw [h0, remove_empty])
          (fun hd => (ih r' hsize hsr _ hd).1), entries_right hs hentries hgt hright⟩

end Over

/-- Repairing a black node with a black left child leaves it black. -/
theorem Leaning.fixUp_black_of_black {k : κ} {v : ν} {c : FLLRBColor} {h : ℕ}
    {l r : FLLRBNode κ ν} (hl : Leaning .black h l) (hr : Leaning c h r) :
    Leaning .black (h + 1) (value k v .black l r).fixUp := by
  cases c with
  | black =>
    rw [fixUp_eq_self hr.isRed_black hl.isRed_or_isRed_left]
    exact .black hl hr
  | red =>
    cases hr with
    | red ha hb =>
      rw [fixUp_rotateLeft hl.isRed_black hb.isRed_black]
      exact .black (.red hl ha) hb

/-- A removal from a tree that is ready keeps its depth, and is one in the list of entries. -/
theorem remove_of_ready {h : ℕ} {n : FLLRBNode κ ν} (hn : ReadyFor cmp aKey h n)
    (hs : SortedDict.Sorted cmp n.entries) :
    Shrunk h n (n.remove cmp aKey) ∧
      (n.remove cmp aKey).entries = SortedDict.remove cmp aKey n.entries := by
  -- on the size, since the removal goes on in what a move has made of a child
  induction hN : n.size using Nat.strong_induction_on generalizing n h with
  | _ N ih =>
  subst hN
  cases hn with
  | ready hn =>
    cases hn with
    | red hn =>
      cases hn with
      | @red k v _ l r hl hr =>
        obtain ⟨hrepaired, hentries⟩ := remove_over hs hl hr
          fun m hm hsm d hd => ih _ hm hd hsm rfl
        obtain ⟨c, hc⟩ := hrepaired.leaning
        exact ⟨⟨c, hc, fun h => by cases h⟩, hentries⟩
    | @three k v h l r hl hr =>
      by_cases hlt : cmp aKey k = .lt
      · have hmove := beforeLeft_of_isRed (k := k) (v := v) (c := .black) (r := r) hl.isRed_red
        obtain ⟨⟨c, hl', -⟩, hentries⟩ := ih _ (size_lt_of_beforeLeft_eq hmove)
          (.ready (.red hl)) (SortedDict.sorted_append_cons_iff.mp hs).1 rfl
        rw [remove_value_of_lt hlt hmove]
        refine ⟨⟨.black, ?_, fun _ => rfl⟩, entries_left hs rfl hlt hentries⟩
        rw [fixUp_eq_self hr.isRed_black hl'.isRed_or_isRed_left]
        exact .black hl' hr
      · cases hl with
        | @red k₁ v₁ _ a d ha hd =>
          -- the red child becomes the root, and the key is looked for below the old one
          have hmove : (value k v .black (value k₁ v₁ .red a d) r).leanRight.beforeRight =
              value k₁ v₁ .black a (value k v .red d r) := by
            simp [leanRight, rotateRight, beforeRight]
          have hsame : (value k₁ v₁ .black a (value k v .red d r)).entries =
              (value k v .black (value k₁ v₁ .red a d) r).entries := by
            rw [← hmove, entries_beforeRight]
          have hs' := hs
          rw [← hsame] at hs'
          obtain ⟨-, hsr, -, hright⟩ := SortedDict.sorted_append_cons_iff.mp hs'
          have hgt : cmp aKey k₁ = .gt :=
            SortedDict.gt_of_lt_of_not_lt (e := (k, v)) hlt (hright (k, v) (by simp))
          have hsize : (value k v .red d r).size <
              (value k v .black (value k₁ v₁ .red a d) r).size := by
            simp only [size]; omega
          obtain ⟨⟨c, hr', -⟩, hentries⟩ := ih _ hsize (.ready (.red (.red hd hr))) hsr rfl
          rw [remove_value_of_not_lt hlt hmove, if_neg (by simp [hgt])]
          exact ⟨⟨.black, ha.fixUp_black_of_black hr', fun _ => rfl⟩,
            entries_right hs hsame hgt hentries⟩
  | @right k v h l r hlt hl hr =>
    have hmove : (value k v .black l r).leanRight.beforeRight = value k v .black l r := by
      simp [leanRight, beforeRight, hl.isRed_black, hr.isRed_red]
    rw [remove_value_of_not_lt hlt hmove]
    by_cases heq : cmp aKey k = .eq
    · obtain ⟨hshrunk, k', v', hnode, hentries⟩ :=
        remove_key hs rfl heq ⟨_, .red hr⟩
      obtain ⟨c, hr', -⟩ := hshrunk (.red hr)
      rw [if_pos heq, if_neg (by simp [isEmpty_of_isRed hr.isRed_red]), hnode]
      exact ⟨⟨.black, hl.fixUp_black_of_black hr', fun _ => rfl⟩, hentries⟩
    · have hgt : cmp aKey k = .gt := eq_gt_of_ne hlt heq
      have hsize : r.size < (value k v .black l r).size := by
        simp only [size]; omega
      obtain ⟨⟨c, hr', -⟩, hentries⟩ := ih _ hsize (.ready (.red hr))
        (SortedDict.sorted_append_cons_iff.mp hs).2.1 rfl
      rw [if_neg heq]
      exact ⟨⟨.black, hl.fixUp_black_of_black hr', fun _ => rfl⟩,
        entries_right hs rfl hgt hentries⟩

/-- A removal from a tree with a black root is one in the list of entries, and the tree is
leaning once its root is black again. -/
theorem remove_of_leaning (aKey : κ) {h : ℕ} {n : FLLRBNode κ ν} (hn : Leaning .black h n)
    (hs : SortedDict.Sorted cmp n.entries) :
    (∃ d, Leaning .black d ((n.remove cmp aKey).withColor .black)) ∧
      (n.remove cmp aKey).entries = SortedDict.remove cmp aKey n.entries := by
  cases hn with
  | empty => rw [remove_empty]; exact ⟨⟨0, .empty⟩, rfl⟩
  | @black k v c h l r hl hr =>
    cases c with
    | red =>
      obtain ⟨hshrunk, hentries⟩ := remove_of_ready (.ready (.three hl hr)) hs
      exact ⟨⟨h + 1, (hshrunk.leaning_black rfl).withColor_black⟩, hentries⟩
    | black =>
      obtain ⟨hrepaired, hentries⟩ := remove_over hs hl hr
        fun m _ hsm d hd => remove_of_ready hd hsm
      exact ⟨hrepaired.withColor_black, hentries⟩

/-- A removal from a tree with a black root that passes the check is one in the list of entries,
and the tree passes the check once its root is black again. -/
theorem check_remove_eq_ok (aKey : κ) {h : ℕ} {n : FLLRBNode κ ν} (hn : n.check = .ok h)
    (hblack : n.isRed = false) (hs : SortedDict.Sorted cmp n.entries) :
    (∃ d, ((n.remove cmp aKey).withColor .black).check = .ok d) ∧
      ((n.remove cmp aKey).withColor .black).entries =
        SortedDict.remove cmp aKey n.entries := by
  obtain ⟨c, hleaning⟩ := check_eq_ok_iff.mp hn
  obtain ⟨⟨d, hd⟩, hentries⟩ :=
    remove_of_leaning aKey (hleaning.of_isRed_eq_false hblack) hs
  exact ⟨⟨d, check_eq_ok_iff.mpr ⟨.black, hd⟩⟩, by rw [entries_withColor, hentries]⟩

end Remove

/-- The key of a root over two black children is removed. -/
theorem check_remove_eq_ok_root :
    (∃ d, (((value 2 'b' .black (value 1 'a' .black empty empty)
        (value 3 'c' .black empty empty)).remove (compare : ℕ → ℕ → Ordering) 2).withColor
          .black).check = .ok d) ∧
      (((value 2 'b' .black (value 1 'a' .black empty empty)
        (value 3 'c' .black empty empty)).remove (compare : ℕ → ℕ → Ordering) 2).withColor
          .black).entries =
        SortedDict.remove compare 2 [(1, 'a'), (2, 'b'), (3, 'c')] :=
  check_remove_eq_ok 2 (h := 2) rfl rfl (by decide)

end LearnCode.FirebaseDatabase.FLLRBNode
