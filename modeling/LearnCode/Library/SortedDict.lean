import Mathlib.Data.List.Basic
import Mathlib.Data.List.Chain
import Mathlib.Data.List.Pairwise

/-!
# Dictionaries in the order of their keys

A dictionary whose keys are compared by a comparator is the list of its entries in ascending
order of the keys. Such a list is determined by the value it gives each key, and inserting or
removing a key in a list that is split at an entry happens on one side of the split.

## Main definitions

* `Sorted cmp l`: the keys of `l` ascend;
* `get cmp k l`, `insert cmp k v l`, `remove cmp k l`: the operations at a key.

## Main results

* `get_insert`, `get_remove`: what an operation at one key does to every key;
* `Sorted.insert`, `Sorted.remove`: the operations keep the order;
* `insert_append_of_lt`, `insert_append_of_eq`, `insert_append_of_gt` and their counterparts for
  `get` and `remove`: the operations on a list that is split at an entry;
* `eq_of_get_eq`: two sorted lists that give every key the same value are equal.
-/

namespace SortedDict

variable {κ ν : Type} (cmp : κ → κ → Ordering)

/-- The keys ascend. -/
def Sorted (l : List (κ × ν)) : Prop :=
  l.Pairwise (fun a b => cmp a.1 b.1 = .lt)

/-- The value at a key. -/
def get (k : κ) (l : List (κ × ν)) : Option ν :=
  (l.find? (fun e => cmp k e.1 == .eq)).map Prod.snd

/-- Put a value at a key: in place of the entry at that key, or else before the first entry at
a greater key. -/
def insert (k : κ) (v : ν) : List (κ × ν) → List (κ × ν)
  | [] => [(k, v)]
  | e :: l =>
    match cmp k e.1 with
    | .lt => (k, v) :: e :: l
    | .eq => (k, v) :: l
    | .gt => e :: insert k v l

/-- Take out the entry at a key. -/
def remove (k : κ) (l : List (κ × ν)) : List (κ × ν) :=
  l.filter (fun e => cmp k e.1 != .eq)

/-- Put values at keys, one after another. -/
def insertAll (entries l : List (κ × ν)) : List (κ × ν) :=
  entries.foldl (fun l e => insert cmp e.1 e.2 l) l

instance (l : List (κ × ν)) : Decidable (Sorted cmp l) :=
  inferInstanceAs (Decidable (l.Pairwise _))

variable {cmp}

@[simp] theorem get_nil (k : κ) : get cmp k ([] : List (κ × ν)) = none := rfl

@[simp] theorem insert_nil (k : κ) (v : ν) : insert cmp k v [] = [(k, v)] := rfl

@[simp] theorem remove_nil (k : κ) : remove cmp k ([] : List (κ × ν)) = [] := rfl

theorem get_cons (k : κ) (e : κ × ν) (l : List (κ × ν)) :
    get cmp k (e :: l) = if cmp k e.1 = .eq then some e.2 else get cmp k l := by
  by_cases h : cmp k e.1 = .eq
  · simp [get, h]
  · simp [get, h]

theorem remove_append (k : κ) (l r : List (κ × ν)) :
    remove cmp k (l ++ r) = remove cmp k l ++ remove cmp k r :=
  List.filter_append _ _

theorem sorted_nil : Sorted cmp ([] : List (κ × ν)) := List.Pairwise.nil

theorem sorted_cons {e : κ × ν} {l : List (κ × ν)} :
    Sorted cmp (e :: l) ↔ (∀ a ∈ l, cmp e.1 a.1 = .lt) ∧ Sorted cmp l :=
  List.pairwise_cons

/-- A list that is split at an entry is sorted when both sides are, and the entry lies between
them. -/
theorem sorted_append_cons_iff [Std.TransCmp cmp] {l r : List (κ × ν)} {e : κ × ν} :
    Sorted cmp (l ++ e :: r) ↔
      Sorted cmp l ∧ Sorted cmp r ∧ (∀ a ∈ l, cmp a.1 e.1 = .lt) ∧
        ∀ b ∈ r, cmp e.1 b.1 = .lt := by
  rw [Sorted, List.pairwise_append, List.pairwise_cons]
  constructor
  · rintro ⟨hl, ⟨her, hr⟩, hlr⟩
    exact ⟨hl, hr, fun a ha => hlr a ha e List.mem_cons_self, her⟩
  · rintro ⟨hl, hr, hle, her⟩
    refine ⟨hl, ⟨her, hr⟩, fun a ha b hb => ?_⟩
    rcases List.mem_cons.mp hb with rfl | hb
    · exact hle a ha
    · exact Std.TransCmp.lt_trans (hle a ha) (her b hb)

/-- A key has no value when no entry is at it. -/
theorem get_eq_none_iff {k : κ} {l : List (κ × ν)} :
    get cmp k l = none ↔ ∀ e ∈ l, cmp k e.1 ≠ .eq := by
  simp [get, List.find?_eq_none]

/-- A key that no entry is at is not removed. -/
theorem remove_eq_self_of_forall_ne {k : κ} {l : List (κ × ν)}
    (h : ∀ e ∈ l, cmp k e.1 ≠ .eq) : remove cmp k l = l := by
  refine List.filter_eq_self.mpr fun e he => ?_
  simpa using h e he

/-- A value is that of an entry at the key. -/
theorem exists_mem_of_get_eq_some {k : κ} {l : List (κ × ν)} {v : ν}
    (h : get cmp k l = some v) : ∃ e ∈ l, cmp k e.1 = .eq ∧ e.2 = v := by
  obtain ⟨e, he, rfl⟩ := Option.map_eq_some_iff.mp h
  exact ⟨e, List.mem_of_find?_eq_some he, by simpa using List.find?_some he, rfl⟩

/-- An entry after an insertion is the new one, or was there. -/
theorem mem_insert {k : κ} {v : ν} {l : List (κ × ν)} {e : κ × ν}
    (h : e ∈ insert cmp k v l) : e = (k, v) ∨ e ∈ l := by
  induction l with
  | nil => exact .inl (List.mem_singleton.mp h)
  | cons a l ih =>
    simp only [insert] at h
    split at h
    · simpa using h
    · rcases List.mem_cons.mp h with he | he
      · exact .inl he
      · exact .inr (List.mem_cons_of_mem a he)
    · rcases List.mem_cons.mp h with rfl | he
      · exact .inr List.mem_cons_self
      · exact (ih he).imp_right (List.mem_cons_of_mem a)

/-- What holds of the new entry and of those that were there holds of all after an insertion. -/
theorem forall_mem_insert {P : κ × ν → Prop} {k : κ} {v : ν} {l : List (κ × ν)} (hnew : P (k, v))
    (hold : ∀ e ∈ l, P e) : ∀ e ∈ insert cmp k v l, P e := by
  intro e he
  rcases mem_insert he with rfl | he
  · exact hnew
  · exact hold e he

/-- A new key adds its entry. -/
theorem insert_perm {k : κ} {l : List (κ × ν)} (h : get cmp k l = none) (v : ν) :
    (insert cmp k v l).Perm ((k, v) :: l) := by
  induction l with
  | nil => exact List.Perm.refl _
  | cons e l ih =>
    rw [get_cons] at h
    split at h
    · cases h
    · rename_i hne
      simp only [insert]
      cases hk : cmp k e.1 with
      | lt => exact List.Perm.refl _
      | eq => exact absurd hk hne
      | gt => exact ((ih h).cons e).trans (List.Perm.swap _ _ l)

/-- An insertion leaves an entry. -/
theorem insert_ne_nil (k : κ) (v : ν) (l : List (κ × ν)) : insert cmp k v l ≠ [] := by
  cases l with
  | nil => simp
  | cons e l => simp only [insert]; split <;> simp

/-- An entry after insertions is one of the new ones, or was there. -/
theorem mem_insertAll {entries l : List (κ × ν)} {e : κ × ν} (h : e ∈ insertAll cmp entries l) :
    e ∈ entries ∨ e ∈ l := by
  induction entries generalizing l with
  | nil => exact .inr h
  | cons a entries ih =>
    rcases ih h with h | h
    · exact .inl (List.mem_cons_of_mem a h)
    · rcases mem_insert h with rfl | h
      · exact .inl List.mem_cons_self
      · exact .inr h

/-- Insertions leave an entry where there was one. -/
theorem insertAll_ne_nil (entries : List (κ × ν)) {l : List (κ × ν)} (hl : l ≠ []) :
    insertAll cmp entries l ≠ [] := by
  induction entries generalizing l with
  | nil => exact hl
  | cons a entries ih => exact ih (insert_ne_nil a.1 a.2 l)

/-- A key that is greater than all others is put at the end. -/
theorem insert_of_forall_lt [Std.OrientedCmp cmp] {k : κ} {l : List (κ × ν)}
    (h : ∀ a ∈ l, cmp a.1 k = .lt) (v : ν) : insert cmp k v l = l ++ [(k, v)] := by
  induction l with
  | nil => rfl
  | cons a l ih =>
    have hgt : cmp k a.1 = .gt := Std.OrientedCmp.gt_of_lt (h a List.mem_cons_self)
    rw [insert, hgt, List.cons_append, ← ih fun b hb => h b (List.mem_cons_of_mem a hb)]

/-- Before the entry of a split, an insertion is one on the left. -/
theorem insert_append_of_lt {l r : List (κ × ν)} {e : κ × ν} {k : κ} (h : cmp k e.1 = .lt)
    (v : ν) : insert cmp k v (l ++ e :: r) = insert cmp k v l ++ e :: r := by
  induction l with
  | nil => simp [insert, h]
  | cons a l ih => simp only [List.cons_append, insert, ih]; split <;> simp

section Split

variable [Std.TransCmp cmp] {l r : List (κ × ν)} {e : κ × ν} {k : κ}

/-- What is less than the entry of a split is less than a key after it. -/
theorem gt_of_lt_of_not_lt (h : cmp k e.1 ≠ .lt) {a : κ} (ha : cmp a e.1 = .lt) :
    cmp k a = .gt := by
  rw [Std.OrientedCmp.gt_iff_lt]
  cases hk : cmp k e.1 with
  | lt => exact absurd hk h
  | eq => exact Std.TransCmp.lt_of_lt_of_eq ha (Std.OrientedCmp.eq_symm hk)
  | gt => exact Std.TransCmp.lt_trans ha (Std.OrientedCmp.gt_iff_lt.mp hk)

/-- From the entry of a split on, an insertion passes the left. -/
private theorem insert_append_of_not_lt (hl : ∀ a ∈ l, cmp a.1 e.1 = .lt)
    (h : cmp k e.1 ≠ .lt) (v : ν) (r : List (κ × ν)) :
    insert cmp k v (l ++ r) = l ++ insert cmp k v r := by
  induction l with
  | nil => rfl
  | cons a l ih =>
    have ha : cmp k a.1 = .gt := gt_of_lt_of_not_lt h (hl a List.mem_cons_self)
    simp only [List.cons_append, insert, ha,
      ih fun b hb => hl b (List.mem_cons_of_mem a hb)]

/-- At the entry of a split, an insertion replaces it. -/
theorem insert_append_of_eq (hl : ∀ a ∈ l, cmp a.1 e.1 = .lt) (h : cmp k e.1 = .eq) (v : ν) :
    insert cmp k v (l ++ e :: r) = l ++ (k, v) :: r := by
  rw [insert_append_of_not_lt hl (by simp [h])]
  simp [insert, h]

/-- After the entry of a split, an insertion is one on the right. -/
theorem insert_append_of_gt (hl : ∀ a ∈ l, cmp a.1 e.1 = .lt) (h : cmp k e.1 = .gt) (v : ν) :
    insert cmp k v (l ++ e :: r) = l ++ e :: insert cmp k v r := by
  rw [insert_append_of_not_lt hl (by simp [h])]
  simp [insert, h]

/-- No entry on the right is at a key up to the one of the split. -/
private theorem ne_eq_of_mem_right (hr : ∀ b ∈ r, cmp e.1 b.1 = .lt) (h : cmp k e.1 ≠ .gt) :
    ∀ b ∈ r, cmp k b.1 ≠ .eq := by
  intro b hb heq
  have hkb : cmp k b.1 = .lt := by
    cases hk : cmp k e.1 with
    | lt => exact Std.TransCmp.lt_trans hk (hr b hb)
    | eq => exact Std.TransCmp.lt_of_eq_of_lt hk (hr b hb)
    | gt => exact absurd hk h
  simp [hkb] at heq

/-- No entry on the left is at a key from the one of the split on. -/
private theorem ne_eq_of_mem_left (hl : ∀ a ∈ l, cmp a.1 e.1 = .lt) (h : cmp k e.1 ≠ .lt) :
    ∀ a ∈ l, cmp k a.1 ≠ .eq := by
  intro a ha heq
  simp [gt_of_lt_of_not_lt h (hl a ha)] at heq

/-- Before the entry of a split, a removal is one on the left. -/
theorem remove_append_of_lt (hr : ∀ b ∈ r, cmp e.1 b.1 = .lt) (h : cmp k e.1 = .lt) :
    remove cmp k (l ++ e :: r) = remove cmp k l ++ e :: r := by
  have he : remove cmp k (e :: r) = e :: r := by
    refine remove_eq_self_of_forall_ne fun b hb => ?_
    rcases List.mem_cons.mp hb with rfl | hb
    · simp [h]
    · exact ne_eq_of_mem_right hr (by simp [h]) b hb
  rw [remove_append, he]

/-- At the entry of a split, a removal takes it out. -/
theorem remove_append_of_eq (hl : ∀ a ∈ l, cmp a.1 e.1 = .lt)
    (hr : ∀ b ∈ r, cmp e.1 b.1 = .lt) (h : cmp k e.1 = .eq) :
    remove cmp k (l ++ e :: r) = l ++ r := by
  have hright : remove cmp k (e :: r) = r := by
    rw [remove, List.filter_cons_of_neg (by simp [h])]
    exact remove_eq_self_of_forall_ne (ne_eq_of_mem_right hr (by simp [h]))
  rw [remove_append, hright,
    remove_eq_self_of_forall_ne (ne_eq_of_mem_left hl (by simp [h]))]

/-- After the entry of a split, a removal is one on the right. -/
theorem remove_append_of_gt (hl : ∀ a ∈ l, cmp a.1 e.1 = .lt) (h : cmp k e.1 = .gt) :
    remove cmp k (l ++ e :: r) = l ++ e :: remove cmp k r := by
  have hright : remove cmp k (e :: r) = e :: remove cmp k r := by
    rw [remove, List.filter_cons_of_pos (by simp [h]), remove]
  rw [remove_append, hright,
    remove_eq_self_of_forall_ne (ne_eq_of_mem_left hl (by simp [h]))]

/-- The value at a key is on the side of the split that the key is on. -/
theorem get_append_cons (hl : ∀ a ∈ l, cmp a.1 e.1 = .lt)
    (hr : ∀ b ∈ r, cmp e.1 b.1 = .lt) :
    get cmp k (l ++ e :: r) =
      match cmp k e.1 with
      | .lt => get cmp k l
      | .eq => some e.2
      | .gt => get cmp k r := by
  have hsplit : get cmp k (l ++ e :: r) = (get cmp k l).or (get cmp k (e :: r)) := by
    simp only [get, List.find?_append, Option.map_or]
  rw [hsplit, get_cons]
  cases h : cmp k e.1 with
  | lt =>
    -- a smaller key is not among the entries on the right
    have hnone : get cmp k r = none :=
      get_eq_none_iff.mpr (ne_eq_of_mem_right hr (by simp [h]))
    simp [hnone]
  | eq =>
    have hnone : get cmp k l = none :=
      get_eq_none_iff.mpr (ne_eq_of_mem_left hl (by simp [h]))
    simp [hnone]
  | gt =>
    -- a greater key is not among those on the left
    have hnone : get cmp k l = none :=
      get_eq_none_iff.mpr (ne_eq_of_mem_left hl (by simp [h]))
    simp [hnone]

/-- The entries whose keys compare in a certain way with a key: on the side of the split that the
key is not on, they are all or none. -/
theorem filter_append_cons (hl : ∀ a ∈ l, cmp a.1 e.1 = .lt) (hr : ∀ b ∈ r, cmp e.1 b.1 = .lt)
    (p : Ordering → Bool) :
    (l ++ e :: r).filter (fun a => p (cmp a.1 k)) =
      match cmp k e.1 with
      | .lt => l.filter (fun a => p (cmp a.1 k)) ++ if p .gt then e :: r else []
      | .eq => (if p .lt then l else []) ++ ((if p .eq then [e] else []) ++ if p .gt then r else [])
      | .gt => (if p .lt then l ++ [e] else []) ++ r.filter (fun a => p (cmp a.1 k)) := by
  -- entries on one side of the key are all kept or all left out
  have hconst : ∀ {s : List (κ × ν)} {o : Ordering}, (∀ a ∈ s, cmp a.1 k = o) →
      s.filter (fun a => p (cmp a.1 k)) = if p o then s else [] := by
    intro s o hs
    split
    case isTrue hp => exact List.filter_eq_self.mpr fun a ha => by rw [hs a ha, hp]
    case isFalse hp => exact List.filter_eq_nil_iff.mpr fun a ha => by rwa [hs a ha]
  rw [List.filter_append]
  cases h : cmp k e.1 with
  | lt =>
    have hright : ∀ a ∈ e :: r, cmp a.1 k = .gt := by
      intro a ha
      rw [Std.OrientedCmp.gt_iff_lt]
      rcases List.mem_cons.mp ha with rfl | ha
      · exact h
      · exact Std.TransCmp.lt_trans h (hr a ha)
    rw [hconst hright]
  | eq =>
    have hleft : ∀ a ∈ l, cmp a.1 k = .lt := fun a ha =>
      Std.TransCmp.lt_of_lt_of_eq (hl a ha) (Std.OrientedCmp.eq_symm h)
    have hright : ∀ a ∈ r, cmp a.1 k = .gt := fun a ha =>
      Std.OrientedCmp.gt_of_lt (Std.TransCmp.lt_of_eq_of_lt h (hr a ha))
    have hmiddle : ∀ a ∈ [e], cmp a.1 k = .eq := fun a ha => by
      rw [List.mem_singleton.mp ha]; exact Std.OrientedCmp.eq_symm h
    rw [← List.singleton_append, List.filter_append, hconst hleft, hconst hright, hconst hmiddle]
  | gt =>
    have hleft : ∀ a ∈ l ++ [e], cmp a.1 k = .lt := by
      intro a ha
      rcases List.mem_append.mp ha with ha | ha
      · exact Std.TransCmp.lt_trans (hl a ha) (Std.OrientedCmp.gt_iff_lt.mp h)
      · rw [List.mem_singleton.mp ha]; exact Std.OrientedCmp.gt_iff_lt.mp h
    rw [← List.singleton_append, List.filter_append, ← List.append_assoc, ← List.filter_append,
      hconst hleft]

end Split

/-- A list whose neighbours ascend is sorted. -/
theorem isChain_iff_sorted [Std.TransCmp cmp] {l : List (κ × ν)} :
    l.IsChain (fun a b => cmp a.1 b.1 = .lt) ↔ Sorted cmp l := by
  let R : κ × ν → κ × ν → Prop := fun a b => cmp a.1 b.1 = .lt
  have : Trans R R R := ⟨fun h h' => Std.TransCmp.lt_trans h h'⟩
  exact List.isChain_iff_pairwise (R := R)

/-- Removing a key keeps the order. -/
theorem Sorted.remove {l : List (κ × ν)} (h : Sorted cmp l) (k : κ) :
    Sorted cmp (remove cmp k l) :=
  h.sublist List.filter_sublist

variable [Std.TransCmp cmp]

/-- Putting a value at a key keeps the order. -/
theorem Sorted.insert {l : List (κ × ν)} (h : Sorted cmp l) (k : κ) (v : ν) :
    Sorted cmp (insert cmp k v l) := by
  induction l with
  | nil => simp [Sorted]
  | cons e l ih =>
    obtain ⟨he, hl⟩ := sorted_cons.mp h
    simp only [SortedDict.insert]
    split
    case h_1 hk =>
      -- the new key is before the first one
      refine sorted_cons.mpr ⟨fun a ha => ?_, h⟩
      rcases List.mem_cons.mp ha with rfl | ha
      · exact hk
      · exact Std.TransCmp.lt_trans hk (he a ha)
    case h_2 hk => exact sorted_cons.mpr ⟨fun a ha => Std.TransCmp.lt_of_eq_of_lt hk (he a ha), hl⟩
    case h_3 hk =>
      -- the new key is after the first one
      refine sorted_cons.mpr ⟨fun a ha => ?_, ih hl⟩
      rcases mem_insert ha with rfl | ha
      · exact Std.OrientedCmp.gt_iff_lt.mp hk
      · exact he a ha

/-- The value at a key after a value is put at another. -/
theorem get_insert (k : κ) (v : ν) (l : List (κ × ν)) (j : κ) :
    get cmp j (insert cmp k v l) = if cmp j k = .eq then some v else get cmp j l := by
  induction l with
  | nil => simp [get_cons]
  | cons e l ih =>
    simp only [insert]
    split
    · rw [get_cons]
    case h_2 hk =>
      -- a key is at the replaced entry when it is at the new one
      have hj : cmp j k = cmp j e.1 := Std.TransCmp.congr_right hk
      rw [get_cons, get_cons, hj]
      split <;> rfl
    case h_3 hk =>
      rw [get_cons, ih, get_cons]
      by_cases hj : cmp j k = .eq
      · have hne : cmp j e.1 ≠ .eq := by rw [Std.TransCmp.congr_left hj, hk]; simp
        rw [if_neg hne, if_pos hj, if_pos hj]
      · simp [hj]

/-- The value at a key after a key is removed. -/
theorem get_remove (k : κ) (l : List (κ × ν)) (j : κ) :
    get cmp j (remove cmp k l) = if cmp j k = .eq then none else get cmp j l := by
  by_cases hj : cmp j k = .eq
  · rw [if_pos hj]
    refine get_eq_none_iff.mpr fun e he => ?_
    rw [Std.TransCmp.congr_left hj]
    simpa using (List.mem_filter.mp he).2
  · rw [if_neg hj]
    induction l with
    | nil => rfl
    | cons e l ih =>
      by_cases hk : cmp k e.1 = .eq
      · -- the entry that goes is not at the key that is asked for
        have hne : cmp j e.1 ≠ .eq := fun h =>
          hj (Std.TransCmp.eq_trans h (Std.OrientedCmp.eq_symm hk))
        rw [remove, List.filter_cons_of_neg (by simp [hk]), get_cons, if_neg hne]
        exact ih
      · rw [remove, List.filter_cons_of_pos (by simp [hk]), get_cons, get_cons]
        rw [remove] at ih
        rw [ih]

/-- The value at a key after a value is put at another, when different keys have different
places. -/
theorem get_insert_of_lawful [Std.LawfulEqCmp cmp] [DecidableEq κ] (k : κ) (v : ν)
    (l : List (κ × ν)) (j : κ) :
    get cmp j (insert cmp k v l) = if j = k then some v else get cmp j l := by
  simp only [get_insert, Std.LawfulEqCmp.compare_eq_iff_eq]

/-- The value at a key after a key is removed, when different keys have different places. -/
theorem get_remove_of_lawful [Std.LawfulEqCmp cmp] [DecidableEq κ] (k : κ) (l : List (κ × ν))
    (j : κ) : get cmp j (remove cmp k l) = if j = k then none else get cmp j l := by
  simp only [get_remove, Std.LawfulEqCmp.compare_eq_iff_eq]

/-- In a sorted list, every entry is the value at its key. -/
theorem get_of_mem {l : List (κ × ν)} (h : Sorted cmp l) {e : κ × ν} (he : e ∈ l) :
    get cmp e.1 l = some e.2 := by
  obtain ⟨front, back, rfl⟩ := List.append_of_mem he
  obtain ⟨-, -, hfront, hback⟩ := sorted_append_cons_iff.mp h
  have hself : cmp e.1 e.1 = .eq := Std.ReflCmp.compare_self
  rw [get_append_cons hfront hback, hself]

/-- No entry of a sorted list occurs twice. -/
theorem Sorted.nodup {l : List (κ × ν)} (h : Sorted cmp l) : l.Nodup :=
  List.Pairwise.imp (fun {a b} hlt heq => by
    have hself : cmp b.1 b.1 = .eq := Std.ReflCmp.compare_self
    rw [heq, hself] at hlt
    cases hlt) h

/-- The keys of a sorted list are distinct. -/
theorem Sorted.nodup_keys {l : List (κ × ν)} (h : Sorted cmp l) : (l.map Prod.fst).Nodup :=
  List.pairwise_map.mpr (List.Pairwise.imp (fun {a b} hlt heq => by
    have hself : cmp b.1 b.1 = .eq := Std.ReflCmp.compare_self
    rw [heq, hself] at hlt
    cases hlt) h)

/-- Two sorted lists of the same entries are equal. -/
theorem Sorted.eq_of_perm {l l' : List (κ × ν)} (h : Sorted cmp l) (h' : Sorted cmp l')
    (hperm : l.Perm l') : l = l' :=
  hperm.eq_of_pairwise
    (fun a b _ _ hab hba => absurd hba (by simp [Std.OrientedCmp.gt_of_lt hab])) h h'

/-- Two sorted lists that give every key the same value are equal. -/
theorem eq_of_get_eq [Std.LawfulEqCmp cmp] {l l' : List (κ × ν)} (h : Sorted cmp l)
    (h' : Sorted cmp l') (hget : ∀ k, get cmp k l = get cmp k l') : l = l' := by
  have hmem : ∀ {l l' : List (κ × ν)}, Sorted cmp l → (∀ k, get cmp k l = get cmp k l') →
      ∀ e ∈ l, e ∈ l' := by
    intro l l' h hget e he
    obtain ⟨e', he', hkey, hvalue⟩ :=
      exists_mem_of_get_eq_some ((hget e.1).symm.trans (get_of_mem h he))
    rwa [Prod.ext (Std.LawfulEqCmp.eq_of_compare hkey) hvalue.symm]
  exact h.eq_of_perm h' ((List.perm_ext_iff_of_nodup h.nodup h'.nodup).mpr
    fun e => ⟨hmem h hget e, hmem h' (fun k => (hget k).symm) e⟩)

/-- Insertions keep a list sorted. -/
theorem Sorted.insertAll {l : List (κ × ν)} (h : Sorted cmp l) (entries : List (κ × ν)) :
    Sorted cmp (insertAll cmp entries l) := by
  induction entries generalizing l with
  | nil => exact h
  | cons a entries ih => exact ih (h.insert a.1 a.2)

/-- Entries that are sorted already are inserted one after another. -/
theorem insertAll_eq_append {l r : List (κ × ν)} (h : Sorted cmp (l ++ r)) :
    insertAll cmp r l = l ++ r := by
  induction r generalizing l with
  | nil => simp [insertAll]
  | cons e r ih =>
    obtain ⟨-, -, hlt, -⟩ := sorted_append_cons_iff.mp h
    have hstep : insertAll cmp (e :: r) l = insertAll cmp r (l ++ [e]) :=
      congrArg (insertAll cmp r) (insert_of_forall_lt hlt e.2)
    rw [hstep, ih (by simpa using h), List.append_assoc, List.singleton_append]

/-- The value at a key after values have been put at distinct keys. -/
theorem get_insertAll [Std.LawfulEqCmp cmp] [DecidableEq κ] {entries : List (κ × ν)}
    (hnodup : (entries.map Prod.fst).Nodup) (l : List (κ × ν)) (k : κ) :
    get cmp k (insertAll cmp entries l) = (entries.lookup k).or (get cmp k l) := by
  induction entries generalizing l with
  | nil => rfl
  | cons e entries ih =>
    obtain ⟨j, v⟩ := e
    obtain ⟨hnotMem, hnodup⟩ := List.nodup_cons.mp hnodup
    have hstep : get cmp k (insertAll cmp ((j, v) :: entries) l) =
        (entries.lookup k).or (get cmp k (insert cmp j v l)) := ih hnodup _
    rw [hstep, get_insert_of_lawful, List.lookup_cons]
    by_cases hk : k = j
    · subst hk
      -- the key is not put a second time
      have hnone : entries.lookup k = none := by
        refine List.lookup_eq_none_iff.mpr fun p hp => ?_
        have hne : k ≠ p.1 := fun heq =>
          hnotMem (List.mem_map.mpr ⟨p, hp, heq.symm⟩)
        simpa using hne
      simp [hnone]
    · have hbeq : (k == j) = false := by simpa using hk
      rw [if_neg hk, hbeq]

end SortedDict
