import LearnCode.Library.PathStore
import Mathlib.Data.List.Chain
import Mathlib.Data.List.Sort

/-!
# Sorted paths

Paths in the lexicographic order of their components: the continuations of a path follow it without
a gap. So in a sorted list two paths that are not apart are found by looking at neighbours.

## Main definitions

* `PathOrder.le cmp p q`: the order, as a test.

## Main results

* `prefix_of_between`: what lies between a path and one that continues it continues it as well;
* `isChain_iff_pairwise`: no path of a sorted list continues another one if none continues the one
  before it;
* `isChain_mergeSort_iff`: the same for a list that is sorted.
-/

namespace PathOrder

open PathStore (Apart)

variable {κ : Type} (cmp : κ → κ → Ordering)

/-- Whether a path does not come after another one. -/
def le (p q : List κ) : Bool := (List.compareLex cmp p q).isLE

variable {cmp}

/-- A path comes before those that continue it. -/
theorem le_of_isPrefix [Std.ReflCmp cmp] {p q : List κ} (h : p <+: q) : le cmp p q = true := by
  induction p generalizing q with
  | nil => exact List.isLE_compareLex_nil_left
  | cons a p ih =>
    obtain ⟨r, rfl⟩ := h
    have htail := ih (List.prefix_append p r)
    have hself : cmp a a = .eq := Std.ReflCmp.compare_self
    rw [le] at htail
    rwa [le, List.cons_append, List.compareLex_cons_cons, hself, Ordering.eq_then]

variable [Std.TransCmp cmp]

/-- The order is transitive. -/
theorem le_trans {p q r : List κ} (h : le cmp p q = true) (h' : le cmp q r = true) :
    le cmp p r = true :=
  Std.TransCmp.isLE_trans h h'

/-- The order is total. -/
theorem le_total (p q : List κ) : (le cmp p q || le cmp q p) = true := by
  have hswap : List.compareLex cmp q p = (List.compareLex cmp p q).swap :=
    Std.OrientedCmp.eq_swap
  rw [le, le, hswap]
  cases List.compareLex cmp p q <;> rfl

variable [Std.LawfulEqCmp cmp]

/-- Two paths that are not before each other are one. -/
theorem eq_of_le {p q : List κ} (h : le cmp p q = true) (h' : le cmp q p = true) : p = q :=
  Std.LawfulEqCmp.eq_of_compare (Std.OrientedCmp.isLE_antisymm h h')

/-- What lies between a path and one that continues it continues it as well. -/
theorem prefix_of_between {p x q : List κ} (h : p <+: q) (hpx : le cmp p x = true)
    (hxq : le cmp x q = true) : p <+: x := by
  induction p generalizing x q with
  | nil => exact List.nil_prefix
  | cons a p ih =>
    obtain ⟨r, rfl⟩ := h
    cases x with
    | nil => simp [le, List.compareLex_cons_nil] at hpx
    | cons b x =>
      rw [le, List.compareLex_cons_cons] at hpx
      rw [le, List.cons_append, List.compareLex_cons_cons] at hxq
      -- the first components bound each other
      have heq : cmp a b = .eq := by
        have hswap : cmp b a = (cmp a b).swap := Std.OrientedCmp.eq_swap
        rw [hswap] at hxq
        cases hab : cmp a b with
        | eq => rfl
        | lt => simp [hab] at hxq
        | gt => simp [hab] at hpx
      obtain rfl : a = b := Std.LawfulEqCmp.eq_of_compare heq
      rw [heq, Ordering.eq_then] at hpx hxq
      exact List.cons_prefix_cons.mpr ⟨rfl, ih (List.prefix_append p r) hpx hxq⟩

/-- In a sorted list, no path continues another one if none continues the one before it. -/
theorem isChain_iff_pairwise {l : List (List κ)} (hl : l.Pairwise fun p q => le cmp p q = true) :
    l.IsChain (fun p q => ¬p <+: q) ↔ l.Pairwise Apart := by
  constructor
  · intro hchain
    induction l with
    | nil => exact List.Pairwise.nil
    | cons p l ih =>
      obtain ⟨hle, hl⟩ := List.pairwise_cons.mp hl
      refine List.pairwise_cons.mpr ⟨fun q hq => ?_, ih hl hchain.of_cons⟩
      have hpre : ¬p <+: q := by
        cases l with
        | nil => cases hq
        | cons x l =>
          intro hpq
          have hxq : le cmp x q = true := by
            rcases List.mem_cons.mp hq with rfl | hq
            · exact le_of_isPrefix List.prefix_rfl
            · exact (List.pairwise_cons.mp hl).1 q hq
          exact (List.isChain_cons_cons.mp hchain).1
            (prefix_of_between hpq (hle x List.mem_cons_self) hxq)
      refine ⟨hpre, fun hqp => hpre ?_⟩
      rw [eq_of_le (hle q hq) (le_of_isPrefix hqp)]
  · exact fun hpairwise => (hpairwise.imp fun h => h.1).isChain

/-- After sorting, no path continues the one before it if and only if all paths are apart. -/
theorem isChain_mergeSort_iff (l : List (List κ)) :
    (l.mergeSort (le cmp)).IsChain (fun p q => ¬p <+: q) ↔ l.Pairwise Apart := by
  rw [isChain_iff_pairwise (List.pairwise_mergeSort (fun _ _ _ => le_trans) le_total l)]
  exact (List.mergeSort_perm l (le cmp)).pairwise_iff fun h => ⟨h.2, h.1⟩

end PathOrder
