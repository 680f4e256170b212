import LearnCode.Library.AssocList
import LearnCode.Swift
import Mathlib.Data.List.Sigma

/-!
# Values read from and written to the database

What `snapshot.value` may be, the casts the app applies to it, and the leaves of a value by
their paths.

## Main definitions

* `Value`: the `Any` that a snapshot holds;
* `Value.asDictionary`, `Value.asString`, `Value.asTimeInterval`: the casts `as? [String: Any]`,
  `as? String` and `as? TimeInterval`;
* `Value.children`: the child snapshots with their keys;
* `Value.leaf`: the scalar at the end of a path;
* `Value.Nested`: the keys of each dictionary in the value are distinct;
* `Value.Reordered`: the same value, with its dictionaries enumerated in another order.
-/

namespace LearnCode

/-- A leaf of the database. -/
inductive Scalar : Type where
  | string (s : String)
  | int (n : ℤ)
  | double (q : ℚ)
  | bool (b : Bool)
deriving DecidableEq

/-- The value of a snapshot. `null` is the value of a node that does not exist, and an array
is what a node whose keys are small integers is converted to. -/
inductive Value : Type where
  | null
  | scalar (s : Scalar)
  | array (elements : List Value)
  | dict (entries : List (String × Value))

namespace Value

/-- A string leaf. -/
abbrev string (s : String) : Value := scalar (.string s)

/-- A floating-point leaf. -/
abbrev double (q : ℚ) : Value := scalar (.double q)

/-- `snapshot.exists()`. -/
def exists_ : Value → Bool
  | null => false
  | _ => true

/-- `as? [String: Any]`. -/
def asDictionary : Value → Option (List (String × Value))
  | dict entries => some entries
  | _ => none

/-- `as? String`. -/
def asString : Value → Option String
  | scalar (.string s) => some s
  | _ => none

/-- `as? TimeInterval`: a number is bridged when `Double` has its exact value, and a boolean
is bridged as one or zero. -/
def asTimeInterval : Value → Option TimeInterval
  | scalar (.double q) => some q
  | scalar (.int n) => if exactlyDouble n then some n else none
  | scalar (.bool b) => some (if b then 1 else 0)
  | _ => none

/-- `snapshot.children`, as keys with values: the entries of a dictionary, or the elements of
an array by their indices. -/
def children : Value → List (String × Value)
  | dict entries => entries
  | array elements => (elements.zipIdx.map fun e => (toString e.2, e.1)).filter fun e => e.2.exists_
  | _ => []

/-- The leaf of a value at the end of a path. -/
def leaf : List String → Value → Option Scalar
  | [], scalar s => some s
  | [], _ => none
  | key :: path, v => (v.children.lookup key).bind (leaf path)

/-- The keys of each dictionary in the value are distinct. -/
inductive Nested : Value → Prop
  | null : Nested null
  | scalar (s : Scalar) : Nested (scalar s)
  | array {elements : List Value} : (∀ v ∈ elements, v.Nested) → Nested (array elements)
  | dict {entries : List (String × Value)} :
      (entries.map Prod.fst).Nodup → (∀ e ∈ entries, e.2.Nested) → Nested (dict entries)

/-- Only a dictionary is cast to one. -/
theorem eq_dict_of_asDictionary {v : Value} {entries : List (String × Value)}
    (h : v.asDictionary = some entries) : v = dict entries := by
  cases v with
  | dict entries' => rw [Option.some.inj h]
  | _ => cases h

/-- Only a string is cast to one. -/
theorem eq_string_of_asString {v : Value} {s : String} (h : v.asString = some s) :
    v = string s := by
  cases v with
  | scalar scalar =>
    cases scalar with
    | string s' => rw [Option.some.inj h]
    | _ => cases h
  | _ => cases h

/-- The children of an array are the elements that exist, under their indices. -/
theorem mem_children_array_iff {elements : List Value} {e : String × Value} :
    e ∈ (array elements).children ↔
      ∃ i : ℕ, elements[i]? = some e.2 ∧ e.1 = toString i ∧ e.2.exists_ = true := by
  obtain ⟨key, v⟩ := e
  simp only [children, List.mem_filter, List.mem_map, Prod.exists, List.mk_mem_zipIdx_iff_getElem?,
    Prod.mk.injEq]
  constructor
  · rintro ⟨⟨w, i, hget, rfl, rfl⟩, hexists⟩
    exact ⟨i, hget, rfl, hexists⟩
  · rintro ⟨i, hget, rfl, hexists⟩
    exact ⟨⟨v, i, hget, rfl, rfl⟩, hexists⟩

/-- The children of a nested value have distinct keys. -/
theorem Nested.nodup_keys {v : Value} (h : v.Nested) : (v.children.map Prod.fst).Nodup := by
  cases h with
  | null => exact List.nodup_nil
  | scalar s => exact List.nodup_nil
  | @array elements _ =>
    -- the decimals of distinct indices are distinct
    have hindices : ((elements.zipIdx.map Prod.snd).map Nat.repr).Nodup :=
      (List.nodup_zipIdx_map_snd elements).map repr_injective
    refine List.Nodup.sublist (List.filter_sublist.map Prod.fst) ?_
    simpa only [List.map_map, Function.comp_def, Nat.toString_eq_repr] using hindices
  | dict hnodup _ => exact hnodup

/-- The children of a nested value are nested. -/
theorem Nested.of_mem_children {v : Value} (h : v.Nested) {e : String × Value}
    (he : e ∈ v.children) : e.2.Nested := by
  cases h with
  | null => cases he
  | scalar s => cases he
  | array helements =>
    obtain ⟨i, hget, -, -⟩ := mem_children_array_iff.mp he
    exact helements e.2 (List.mem_of_getElem? hget)
  | dict _ hentries => exact hentries e he

/-- A value with a child whose key is no index is a dictionary. -/
theorem eq_dict_of_lookup {v : Value} {key : String} (hkey : key.toList.all Char.isDigit = false)
    {w : Value} (hw : v.children.lookup key = some w) : v = .dict v.children := by
  cases v with
  | null => cases hw
  | scalar s => cases hw
  | array elements =>
    obtain ⟨_, _, hchildren, -⟩ := List.lookup_eq_some_iff.mp hw
    have hmem : (key, w) ∈ (array elements).children := by simp [hchildren]
    obtain ⟨i, -, hindex, -⟩ := mem_children_array_iff.mp hmem
    -- the key of an element is a decimal
    rw [show key = toString i from hindex, all_isDigit_toString] at hkey
    cases hkey
  | dict entries => rfl

/-- The leaf below a child. -/
theorem leaf_cons (key : String) (path : List String) (v : Value) :
    v.leaf (key :: path) = (v.children.lookup key).bind (leaf path) := rfl

/-- A dictionary is not a leaf. -/
@[simp] theorem leaf_dict_nil (entries : List (String × Value)) :
    (dict entries).leaf [] = none := rfl

/-- The leaves of a dictionary with one entry. -/
theorem leaf_dict_singleton (key : String) (v : Value) (k : String) (path : List String) :
    (dict [(key, v)]).leaf (k :: path) = if key = k then v.leaf path else none := by
  by_cases h : key = k
  · simp [leaf_cons, children, h]
  · have hne : (k == key) = false := by simpa using Ne.symm h
    simp [leaf_cons, children, List.lookup_cons, hne, h]

/-- The same value, with the entries of its dictionaries enumerated in another order. The
order in which a dictionary is enumerated may change from one read to the next, and that of an
array does not. -/
inductive Reordered : Value → Value → Prop
  | null : Reordered null null
  | scalar (s : Scalar) : Reordered (scalar s) (scalar s)
  | array {elements elements' : List Value} : elements.length = elements'.length →
      (∀ (i : ℕ) v v', elements[i]? = some v → elements'[i]? = some v' → Reordered v v') →
      Reordered (array elements) (array elements')
  | dict {entries entries' : List (String × Value)} :
      (entries.map Prod.fst).Perm (entries'.map Prod.fst) →
      (∀ k v v', entries.lookup k = some v → entries'.lookup k = some v' → Reordered v v') →
      Reordered (dict entries) (dict entries')

/-- A nested value is enumerated in its own order. -/
theorem Nested.reordered {v : Value} (h : v.Nested) : Reordered v v := by
  induction h with
  | null => exact Reordered.null
  | scalar s => exact Reordered.scalar s
  | array _ ih =>
    refine Reordered.array rfl fun i v v' hv hv' => ?_
    obtain rfl : v = v' := Option.some.inj (hv.symm.trans hv')
    exact ih v (List.mem_of_getElem? hv)
  | dict hnodup _ ih =>
    refine Reordered.dict (List.Perm.refl _) fun k v v' hv hv' => ?_
    obtain rfl : v = v' := Option.some.inj (hv.symm.trans hv')
    exact ih (k, v) ((AssocList.lookup_eq_some_iff_mem hnodup).mp hv)

/-- Of two orders of one value both are dictionaries, or neither is. -/
theorem Reordered.asDictionary_cases {v v' : Value} (h : Reordered v v') :
    (v.asDictionary = none ∧ v'.asDictionary = none) ∨
      ∃ entries entries', v = .dict entries ∧ v' = .dict entries' := by
  cases h with
  | null => exact .inl ⟨rfl, rfl⟩
  | scalar s => exact .inl ⟨rfl, rfl⟩
  | array _ _ => exact .inl ⟨rfl, rfl⟩
  | dict _ _ => exact .inr ⟨_, _, rfl, rfl⟩

/-- The keys of a dictionary are distinct in every order. -/
theorem Reordered.nodup_keys {entries entries' : List (String × Value)}
    (h : Reordered (.dict entries) (.dict entries')) (hnodup : (entries.map Prod.fst).Nodup) :
    (entries'.map Prod.fst).Nodup := by
  cases h with
  | dict hkeys _ => exact hkeys.nodup_iff.mp hnodup

/-- The same key of two orders of one dictionary is absent from both, or has one value in two
orders. -/
theorem Reordered.lookup_cases {entries entries' : List (String × Value)}
    (h : Reordered (.dict entries) (.dict entries')) (key : String) :
    (entries.lookup key = none ∧ entries'.lookup key = none) ∨
      ∃ v v', entries.lookup key = some v ∧ entries'.lookup key = some v' ∧
        Reordered v v' := by
  cases h with
  | dict hkeys hvalues =>
    by_cases hmem : key ∈ entries.map Prod.fst
    · obtain ⟨v, hv⟩ := AssocList.exists_lookup_of_mem_keys hmem
      obtain ⟨v', hv'⟩ := AssocList.exists_lookup_of_mem_keys (hkeys.mem_iff.mp hmem)
      exact .inr ⟨v, v', hv, hv', hvalues key v v' hv hv'⟩
    · exact .inl ⟨AssocList.lookup_eq_none_of_notMem_keys hmem,
        AssocList.lookup_eq_none_of_notMem_keys (fun h => hmem (hkeys.mem_iff.mpr h))⟩

/-- A cast that does not depend on the order of a value gives the same at each key. -/
theorem Reordered.lookup_bind_eq {β : Type} {entries entries' : List (String × Value)}
    (h : Reordered (.dict entries) (.dict entries')) (key : String) {cast : Value → Option β}
    (hcast : ∀ v v', Reordered v v' → cast v = cast v') :
    (entries.lookup key).bind cast = (entries'.lookup key).bind cast := by
  rcases h.lookup_cases key with ⟨hnone, hnone'⟩ | ⟨v, v', hv, hv', hr⟩
  · rw [hnone, hnone']
  · rw [hv, hv', Option.bind_some, Option.bind_some, hcast v v' hr]

/-- The cast to a string does not depend on the order. -/
theorem Reordered.asString_eq {v v' : Value} (h : Reordered v v') :
    v.asString = v'.asString := by
  cases h <;> rfl

/-- The cast to a time does not depend on the order. -/
theorem Reordered.asTimeInterval_eq {v v' : Value} (h : Reordered v v') :
    v.asTimeInterval = v'.asTimeInterval := by
  cases h <;> rfl

end Value

end LearnCode
