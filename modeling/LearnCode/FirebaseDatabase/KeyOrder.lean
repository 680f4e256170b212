import Mathlib.Data.List.Basic
import Mathlib.Data.Nat.Notation
import Mathlib.Data.Int.Notation
import Mathlib.Algebra.Order.Ring.Int
import Mathlib.Data.Fintype.EquivFin

/-!
# The order of keys

The order in which the database keeps the children of a node: keys that are 32-bit integers come
first, by their values and then by their lengths, and all other keys follow by their UTF-16 code
units.

## Main definitions

* `unichars`: the UTF-16 code units of a string;
* `tryParseStringToInt`: the integer that a key stands for;
* `compareKey`: the order;
* `ChildKey`: a key that is not written as a negative zero.

## Main results

* `compareKey_order`: the order is total and transitive on all strings, and two different keys
  have one place only if one is a zero with a sign and the other the zero with as many characters;
* the instances for `ChildKey`: on the other keys the order is linear.
-/

namespace LearnCode.FirebaseDatabase

/-- The UTF-16 code units of a character. -/
def utf16 (c : Char) : List ℕ :=
  if c.toNat < 0x10000 then [c.toNat]
  else [0xD800 + (c.toNat - 0x10000) / 0x400, 0xDC00 + (c.toNat - 0x10000) % 0x400]

/-- The characters of an `NSString`: its UTF-16 code units. -/
def unichars (s : String) : List ℕ := s.toList.flatMap utf16

/-- The loop of `tryParseStringToInt`. -/
def parseDigits : List ℕ → (value : ℕ) → Option ℕ
  | [], value => some value
  | c :: rest, value =>
    if c < 48 ∨ c > 57 then none else parseDigits rest (value * 10 + (c - 48))

/-- `tryParseStringToInt`. -/
def tryParseStringToInt (str : List ℕ) : Option ℤ :=
  if str.length > 11 ∨ str.length = 0 then none
  else if str.head? = some 45 then
    if str.length = 1 then none
    else (parseDigits str.tail 0).bind fun value =>
      if -(value : ℤ) < -2147483648 then none else some (-(value : ℤ))
  else (parseDigits str 0).bind fun value =>
    if (value : ℤ) > 2147483647 then none else some (value : ℤ)

/-- `minName`. -/
def minName : String := "[MIN_NAME]"

/-- `maxName`. -/
def maxName : String := "[MAX_NAME]"

/-- `compareKey:toKey:`. -/
def compareKey (a b : String) : Ordering :=
  if a = b then .eq
  else if a = minName ∨ b = maxName then .lt
  else if b = minName ∨ a = maxName then .gt
  else
    match tryParseStringToInt (unichars a), tryParseStringToInt (unichars b) with
    | some aAsInt, some bAsInt =>
      if aAsInt > bAsInt then .gt
      else if aAsInt < bAsInt then .lt
      else compare (unichars a).length (unichars b).length
    | some _, none => .lt
    | none, some _ => .gt
    | none, none => List.compareLex compare (unichars a) (unichars b)

/-! ## Code units -/

/-- The code units of a character and of what follows it tell where it ends. -/
theorem utf16_append_inj {c d : Char} {l l' : List ℕ} (h : utf16 c ++ l = utf16 d ++ l') :
    c = d ∧ l = l' := by
  have hc : c.toNat < 0xD800 ∨ 0xDFFF < c.toNat ∧ c.toNat < 0x110000 := c.valid
  have hd : d.toNat < 0xD800 ∨ 0xDFFF < d.toNat ∧ d.toNat < 0x110000 := d.valid
  have hinj : c.toNat = d.toNat → c = d := Char.toNat_inj.mp
  unfold utf16 at h
  split at h <;> split at h <;> simp only [List.cons_append, List.nil_append, List.cons.injEq] at h
  · exact ⟨hinj h.1, h.2⟩
  -- the first unit of a pair is no character of its own
  · omega
  · omega
  · exact ⟨hinj (by omega), h.2.2⟩

theorem utf16_ne_nil (c : Char) : utf16 c ≠ [] := by
  unfold utf16
  split <;> simp

/-- A string is determined by its code units. -/
theorem unichars_injective : Function.Injective unichars := by
  have hlist : ∀ l l' : List Char, l.flatMap utf16 = l'.flatMap utf16 → l = l' := by
    intro l
    induction l with
    | nil =>
      intro l' h
      cases l' with
      | nil => rfl
      | cons d l' => simp [utf16_ne_nil] at h
    | cons c l ih =>
      intro l' h
      cases l' with
      | nil => simp [utf16_ne_nil] at h
      | cons d l' =>
        rw [List.flatMap_cons, List.flatMap_cons] at h
        obtain ⟨rfl, hrest⟩ := utf16_append_inj h
        rw [ih l' hrest]
  exact fun s s' h => String.toList_injective (hlist _ _ h)

/-! ## Integers -/

/-- Two strings of digits with the same length and value are the same. -/
theorem parseDigits_inj {l l' : List ℕ} {a a' m : ℕ} (hlen : l.length = l'.length)
    (h : parseDigits l a = some m) (h' : parseDigits l' a' = some m) : l = l' ∧ a = a' := by
  induction l generalizing l' a a' with
  | nil =>
    obtain rfl : l' = [] := List.length_eq_zero_iff.mp hlen.symm
    exact ⟨rfl, Option.some.inj (h.trans h'.symm)⟩
  | cons c l ih =>
    cases l' with
    | nil => cases hlen
    | cons c' l' =>
      simp only [parseDigits] at h h'
      split at h
      · cases h
      · split at h'
        · cases h'
        · obtain ⟨rfl, hvalue⟩ := ih (Nat.succ.inj hlen) h h'
          have hc : c = c' := by omega
          exact ⟨by rw [hc], by omega⟩

/-- The value of digits is zero when all of them are. -/
theorem parseDigits_eq_zero {l : List ℕ} {a : ℕ} (h : parseDigits l a = some 0) :
    a = 0 ∧ ∀ c ∈ l, c = 48 := by
  induction l generalizing a with
  | nil => exact ⟨Option.some.inj h, by simp⟩
  | cons c l ih =>
    simp only [parseDigits] at h
    split at h
    · cases h
    · obtain ⟨hvalue, hl⟩ := ih h
      exact ⟨by omega, List.forall_mem_cons.mpr ⟨by omega, hl⟩⟩

/-- A zero with a sign and as many digits as are needed for a given length. -/
def IsNegativeZero (str : List ℕ) : Prop :=
  2 ≤ str.length ∧ str.length ≤ 11 ∧ str = 45 :: List.replicate (str.length - 1) 48

instance (str : List ℕ) : Decidable (IsNegativeZero str) :=
  inferInstanceAs (Decidable (2 ≤ str.length ∧ str.length ≤ 11 ∧
    str = 45 :: List.replicate (str.length - 1) 48))

/-- What a key that is an integer looks like. -/
theorem tryParseStringToInt_eq_some {str : List ℕ} {m : ℤ} (h : tryParseStringToInt str = some m) :
    str.length ≤ 11 ∧
      ((∃ rest value, str = 45 :: rest ∧ rest ≠ [] ∧ parseDigits rest 0 = some value ∧
          m = -(value : ℤ)) ∨
        ∃ value, parseDigits str 0 = some value ∧ m = value) := by
  unfold tryParseStringToInt at h
  split at h
  · cases h
  · rename_i hlen
    refine ⟨by omega, ?_⟩
    split at h
    · -- after a minus sign there are digits
      rename_i hneg
      left
      split at h
      · cases h
      · rename_i hone
        obtain ⟨value, hvalue, hm⟩ := Option.bind_eq_some_iff.mp h
        cases str with
        | nil => cases hneg
        | cons c rest =>
          obtain rfl : c = 45 := Option.some.inj hneg
          refine ⟨rest, value, rfl, fun hnil => hone (by rw [hnil]; rfl), hvalue, ?_⟩
          split at hm
          · cases hm
          · exact (Option.some.inj hm).symm
    · right
      obtain ⟨value, hvalue, hm⟩ := Option.bind_eq_some_iff.mp h
      refine ⟨value, hvalue, ?_⟩
      split at hm
      · cases hm
      · exact (Option.some.inj hm).symm

/-- Two integers of one value and one length are written alike, or one of them is a zero with a
sign. -/
theorem eq_or_isNegativeZero {str str' : List ℕ} {m : ℤ} (hlen : str.length = str'.length)
    (h : tryParseStringToInt str = some m) (h' : tryParseStringToInt str' = some m) :
    str = str' ∨ (IsNegativeZero str ∧ str' = List.replicate str.length 48) ∨
      (IsNegativeZero str' ∧ str = List.replicate str'.length 48) := by
  -- a zero with a sign, next to digits of the same length
  have hmixed : ∀ {str str' : List ℕ} {rest : List ℕ} {value value' : ℕ},
      str.length = str'.length → str.length ≤ 11 → str = 45 :: rest → rest ≠ [] →
      parseDigits rest 0 = some value → parseDigits str' 0 = some value' →
      -(value : ℤ) = value' → IsNegativeZero str ∧ str' = List.replicate str.length 48 := by
    intro str str' rest value value' hlen hle hstr hne hvalue hvalue' heq
    obtain rfl : value = 0 := by omega
    obtain rfl : value' = 0 := by omega
    obtain ⟨-, hrest⟩ := parseDigits_eq_zero hvalue
    obtain ⟨-, hstr'⟩ := parseDigits_eq_zero hvalue'
    refine ⟨⟨?_, hle, ?_⟩, ?_⟩
    · have hpos : 0 < rest.length := List.length_pos_iff.mpr hne
      rw [hstr, List.length_cons]
      omega
    · rw [hstr, List.length_cons, Nat.add_sub_cancel]
      exact congrArg _ (List.eq_replicate_iff.mpr ⟨rfl, hrest⟩)
    · rw [hlen]
      exact List.eq_replicate_iff.mpr ⟨rfl, hstr'⟩
  obtain ⟨hle, h⟩ := tryParseStringToInt_eq_some h
  obtain ⟨hle', h'⟩ := tryParseStringToInt_eq_some h'
  rcases h with ⟨rest, value, hstr, hne, hvalue, hm⟩ | ⟨value, hvalue, hm⟩ <;>
    rcases h' with ⟨rest', value', hstr', hne', hvalue', hm'⟩ | ⟨value', hvalue', hm'⟩
  · left
    obtain rfl : value = value' := by omega
    rw [hstr, hstr']
    rw [hstr, hstr'] at hlen
    rw [(parseDigits_inj (Nat.succ.inj hlen) hvalue hvalue').1]
  · exact .inr (.inl (hmixed hlen hle hstr hne hvalue hvalue' (by omega)))
  · refine .inr (.inr ?_)
    exact hmixed hlen.symm hle' hstr' hne' hvalue' hvalue (by omega)
  · left
    obtain rfl : value = value' := by omega
    exact (parseDigits_inj hlen hvalue hvalue').1

/-! ## The order -/

/-- What a key is compared by: the class it is in, its value and its length when it is an
integer, and its code units when it is not. -/
structure Rank where
  /-- Zero for `minName`, one for an integer, two for any other key, three for `maxName`. -/
  cls : ℕ
  /-- The value of an integer. -/
  value : ℤ
  /-- The length of an integer. -/
  length : ℕ
  /-- The code units of any other key. -/
  units : List ℕ

/-- What a key is compared by. -/
def rank (a : String) : Rank :=
  if a = minName then ⟨0, 0, 0, []⟩
  else if a = maxName then ⟨3, 0, 0, []⟩
  else
    match tryParseStringToInt (unichars a) with
    | some m => ⟨1, m, (unichars a).length, []⟩
    | none => ⟨2, 0, 0, unichars a⟩

/-- Ranks are compared field by field. -/
def compareRank : Rank → Rank → Ordering :=
  compareLex (compareOn Rank.cls)
    (compareLex (compareOn Rank.value)
      (compareLex (compareOn Rank.length) (compareOn Rank.units)))

instance : Std.TransCmp compareRank :=
  inferInstanceAs (Std.TransCmp (compareLex (compareOn Rank.cls)
    (compareLex (compareOn Rank.value)
      (compareLex (compareOn Rank.length) (compareOn Rank.units)))))

/-- Only one rank compares as equal to a rank. -/
theorem compareRank_eq_eq_iff {r r' : Rank} : compareRank r r' = .eq ↔ r = r' := by
  obtain ⟨c, v, l, u⟩ := r
  obtain ⟨c', v', l', u'⟩ := r'
  simp [compareRank, compareLex_eq_eq, compareOn]

theorem compareRank_of_cls_lt {r r' : Rank} (h : r.cls < r'.cls) : compareRank r r' = .lt := by
  simp [compareRank, compareLex, compareOn, Nat.compare_eq_lt.mpr h]

theorem compareRank_of_cls_gt {r r' : Rank} (h : r'.cls < r.cls) : compareRank r r' = .gt := by
  simp [compareRank, compareLex, compareOn, Nat.compare_eq_gt.mpr h]

theorem rank_minName : rank minName = ⟨0, 0, 0, []⟩ := rfl

theorem rank_maxName : rank maxName = ⟨3, 0, 0, []⟩ := by
  rw [rank, if_neg (by decide), if_pos rfl]

/-- The class of a key that is neither the least nor the greatest name. -/
theorem rank_of_ne {a : String} (hmin : a ≠ minName) (hmax : a ≠ maxName) :
    rank a =
      match tryParseStringToInt (unichars a) with
      | some m => ⟨1, m, (unichars a).length, []⟩
      | none => ⟨2, 0, 0, unichars a⟩ := by
  rw [rank, if_neg hmin, if_neg hmax]

theorem cls_of_ne {a : String} (hmin : a ≠ minName) (hmax : a ≠ maxName) :
    0 < (rank a).cls ∧ (rank a).cls < 3 := by
  rw [rank_of_ne hmin hmax]
  split <;> simp

theorem cls_pos {a : String} (hmin : a ≠ minName) : 0 < (rank a).cls := by
  by_cases hmax : a = maxName
  · simp [hmax, rank_maxName]
  · exact (cls_of_ne hmin hmax).1

theorem cls_lt {a : String} (hmax : a ≠ maxName) : (rank a).cls < 3 := by
  by_cases hmin : a = minName
  · simp [hmin, rank_minName]
  · exact (cls_of_ne hmin hmax).2

/-- Keys are compared by their ranks. -/
theorem compareKey_eq_compareRank (a b : String) :
    compareKey a b = compareRank (rank a) (rank b) := by
  by_cases hab : a = b
  · rw [hab, compareRank_eq_eq_iff.mpr rfl, compareKey, if_pos rfl]
  rw [compareKey, if_neg hab]
  split
  · -- the least name, or before the greatest
    rename_i h
    refine (compareRank_of_cls_lt ?_).symm
    rcases h with rfl | rfl
    · exact cls_pos (Ne.symm hab)
    · rw [rank_maxName]; exact cls_lt hab
  split
  · rename_i _ h
    refine (compareRank_of_cls_gt ?_).symm
    rcases h with rfl | rfl
    · exact cls_pos hab
    · rw [rank_maxName]; exact cls_lt (Ne.symm hab)
  rename_i h h'
  rw [not_or] at h h'
  -- neither is a bound: integers by value and length, and before the other strings
  rw [rank_of_ne h.1 h'.2, rank_of_ne h'.1 h.2]
  cases tryParseStringToInt (unichars a) with
  | none =>
    cases tryParseStringToInt (unichars b) with
    | none => simp [compareRank, compareLex, compareOn]; rfl
    | some n => exact (compareRank_of_cls_gt (by simp)).symm
  | some m =>
    cases tryParseStringToInt (unichars b) with
    | none => exact (compareRank_of_cls_lt (by simp)).symm
    | some n =>
      simp only [compareRank, compareLex, compareOn, Std.ReflCmp.compare_self, Ordering.then]
      rcases lt_trichotomy m n with hlt | rfl | hgt
      · simp [hlt, hlt.not_gt, compare_lt_iff_lt.mpr hlt]
      · simp only [lt_irrefl, if_false, Std.ReflCmp.compare_self]
        cases compare (unichars a).length (unichars b).length <;> rfl
      · simp [hgt, compare_gt_iff_gt.mpr hgt]

/-- The order is total and transitive on all strings. -/
instance compareKey_transCmp : Std.TransCmp compareKey where
  eq_swap {a b} := by
    rw [compareKey_eq_compareRank, compareKey_eq_compareRank]
    exact Std.OrientedCmp.eq_swap
  isLE_trans {a b c} hab hbc := by
    rw [compareKey_eq_compareRank] at hab hbc ⊢
    exact Std.TransCmp.isLE_trans hab hbc

/-- Two keys in one place are equal, or one of them is a zero with a sign. -/
theorem eq_or_of_compareKey_eq {a b : String} (h : compareKey a b = .eq) :
    a = b ∨
      (IsNegativeZero (unichars a) ∧ unichars b = List.replicate (unichars a).length 48) ∨
      (IsNegativeZero (unichars b) ∧ unichars a = List.replicate (unichars b).length 48) := by
  rw [compareKey_eq_compareRank, compareRank_eq_eq_iff] at h
  by_cases hmin : a = minName
  · left
    by_contra hab
    have hpos := cls_pos (fun hb => hab (hmin.trans hb.symm) : b ≠ minName)
    rw [← h, hmin, rank_minName] at hpos
    cases hpos
  by_cases hmax : a = maxName
  · left
    by_contra hab
    have hlt := cls_lt (fun hb => hab (hmax.trans hb.symm) : b ≠ maxName)
    rw [← h, hmax, rank_maxName] at hlt
    exact absurd hlt (lt_irrefl 3)
  -- the ranks are equal, so the other key is no bound either
  have hcls := cls_of_ne hmin hmax
  rw [h] at hcls
  have hbmin : b ≠ minName := by rintro rfl; simp [rank_minName] at hcls
  have hbmax : b ≠ maxName := by rintro rfl; simp [rank_maxName] at hcls
  rw [rank_of_ne hmin hmax, rank_of_ne hbmin hbmax] at h
  cases ha : tryParseStringToInt (unichars a) with
  | none =>
    cases hb : tryParseStringToInt (unichars b) with
    | none =>
      rw [ha, hb] at h
      exact .inl (unichars_injective (Rank.mk.inj h).2.2.2)
    | some n => rw [ha, hb] at h; cases h
  | some m =>
    cases hb : tryParseStringToInt (unichars b) with
    | none => rw [ha, hb] at h; cases h
    | some n =>
      rw [ha, hb] at h
      obtain ⟨-, rfl, hlen, -⟩ := Rank.mk.inj h
      exact (eq_or_isNegativeZero hlen ha hb).imp_left fun h => unichars_injective h

/-- The value of zeros. -/
theorem parseDigits_replicate (n : ℕ) : parseDigits (List.replicate n 48) 0 = some 0 := by
  induction n with
  | zero => rfl
  | succ n ih => simpa [List.replicate_succ, parseDigits] using ih

/-- A zero with a sign is in the place of the zero with as many characters. -/
theorem compareKey_eq_of_isNegativeZero {a b : String} (ha : IsNegativeZero (unichars a))
    (hb : unichars b = List.replicate (unichars a).length 48) : compareKey a b = .eq := by
  obtain ⟨hge, hle, hn⟩ := ha
  have ha : tryParseStringToInt (unichars a) = some 0 := by
    rw [tryParseStringToInt, if_neg (by omega), hn]
    simp only [List.head?_cons, List.tail_cons, parseDigits_replicate, if_true]
    rw [if_neg (by simp; omega)]
    simp
  have hb' : tryParseStringToInt (unichars b) = some 0 := by
    obtain ⟨n, hn⟩ : ∃ n, (unichars a).length = n + 1 := ⟨_, (Nat.sub_add_cancel (by omega)).symm⟩
    rw [tryParseStringToInt, hb, parseDigits_replicate, List.length_replicate,
      if_neg (by omega), hn]
    simp [List.replicate_succ]
  have hmin : ∀ {s : String}, tryParseStringToInt (unichars s) = some 0 →
      s ≠ minName ∧ s ≠ maxName := by
    intro s hs
    constructor <;> rintro rfl <;> revert hs <;> decide
  rw [compareKey_eq_compareRank, compareRank_eq_eq_iff, rank_of_ne (hmin ha).1 (hmin ha).2,
    rank_of_ne (hmin hb').1 (hmin hb').2, ha, hb', hb, List.length_replicate]

/-- The order is total and transitive on all strings, and two different keys have one place in it
only if one of them is a zero with a sign and the other the zero with as many characters. -/
theorem compareKey_order :
    Std.TransCmp compareKey ∧
      ∀ a b, compareKey a b = .eq ↔ a = b ∨
        (IsNegativeZero (unichars a) ∧ unichars b = List.replicate (unichars a).length 48) ∨
        (IsNegativeZero (unichars b) ∧ unichars a = List.replicate (unichars b).length 48) := by
  refine ⟨compareKey_transCmp, fun a b => ⟨eq_or_of_compareKey_eq, ?_⟩⟩
  rintro (rfl | ⟨ha, hb⟩ | ⟨hb, ha⟩)
  · exact Std.ReflCmp.compare_self
  · exact compareKey_eq_of_isNegativeZero ha hb
  · exact Std.OrientedCmp.eq_symm (compareKey_eq_of_isNegativeZero hb ha)

/-! ## The keys of children -/

/-- A key that is not written as a negative zero. -/
structure ChildKey where
  /-- The key itself. -/
  name : String
  /-- No other key is in its place. -/
  notNegativeZero : ¬IsNegativeZero (unichars name)
deriving DecidableEq

namespace ChildKey

theorem ext_name {a b : ChildKey} (h : a.name = b.name) : a = b := by
  cases a
  cases b
  congr

/-- `keyComparator`. -/
def keyComparator (a b : ChildKey) : Ordering := compareKey a.name b.name

instance : Std.TransCmp keyComparator where
  eq_swap := compareKey_transCmp.eq_swap
  isLE_trans := compareKey_transCmp.isLE_trans

instance : Std.LawfulEqCmp keyComparator where
  compare_self {a} := by
    show compareKey a.name a.name = .eq
    exact Std.ReflCmp.compare_self
  eq_of_compare {a b} h := by
    rcases eq_or_of_compareKey_eq h with h | ⟨ha, -⟩ | ⟨hb, -⟩
    · exact ext_name h
    · exact absurd ha a.notNegativeZero
    · exact absurd hb b.notNegativeZero

/-- The key of `n` letters. -/
def letters (n : ℕ) : ChildKey where
  name := String.ofList (List.replicate n 'a')
  notNegativeZero := by
    rintro ⟨hlen, -, heq⟩
    rw [unichars, String.toList_ofList] at hlen heq
    cases n with
    | zero => simp at hlen
    | succ n =>
      rw [List.replicate_succ, List.flatMap_cons] at heq
      have hhead : (97 : ℕ) = 45 := (List.cons.inj heq).1
      omega

instance : Infinite ChildKey :=
  Infinite.of_injective letters fun m n h => by
    have hlist := congrArg (fun k => k.name.toList.length) h
    simpa [letters] using hlist

end ChildKey

end LearnCode.FirebaseDatabase
