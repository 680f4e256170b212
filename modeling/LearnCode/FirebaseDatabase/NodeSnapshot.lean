import LearnCode.FirebaseDatabase.FSnapshotUtilities
import LearnCode.SignUp.ReadBack
import Mathlib.Data.List.TakeWhile

/-!
# Snapshots of nodes

What the app reads is the exported value of a node: dictionaries, and arrays where the keys of a
node are small numbers. Here the values of the client are connected with those of the app, so that
the reads and writes of the app, which are stated about a store of leaves, are what the client does
with its nodes.

## Main definitions

* `Payload.toValue`: a value as the app has it;
* `FNode.database`: the store of the leaves of a node, by the names of their keys;
* `AsciiDigits`: a key has no digits of other scripts;
* `FNode.Plain`: all leaves of a node hold scalars, and its keys have no such digits;
* `FNode.snapshot`: what the app reads at a path.

## Main results

* `FNode.leaf_val`: the leaves of an exported node are those of the node, also when it becomes an
  array;
* `FNode.snapshot`: a read at a path gives a snapshot of the store, and each of its nodes has a
  leaf;
* `FSnapshotUtilities.leaves_nodeFrom`: the leaves of a node made of a value are those of the
  value;
* `FNode.leaf_val_updateChild`: what is put at a path and read back is what a write leaves in the
  store.
-/

namespace LearnCode.FirebaseDatabase

open ChildKey PathStore

/-! ## Keys that are indices -/

/-- A digit is that of its value. -/
theorem digitChar_sub_of_isDigit {c : Char} (h : c.isDigit = true) :
    c.toNat - 48 < 10 ∧ Nat.digitChar (c.toNat - 48) = c := by
  simp only [Char.isDigit, Bool.and_eq_true, decide_eq_true_eq] at h
  have hlow : 48 ≤ c.toNat := h.1
  have hhigh : c.toNat ≤ 57 := h.2
  refine ⟨by omega, ?_⟩
  obtain ⟨d, hd, hlt⟩ : ∃ d, c.toNat = 48 + d ∧ d < 10 := ⟨c.toNat - 48, by omega, by omega⟩
  have hchar : c = Char.ofNat (48 + d) := by rw [← hd, Char.ofNat_toNat]
  have hall : ∀ d < 10, Nat.digitChar d = Char.ofNat (48 + d) := by decide
  rw [hd, Nat.add_sub_cancel_left, hchar, hall d hlt]

/-- Digits that do not begin with a zero, or are that zero only, are the decimal of their value. -/
theorem toDigits_ofDigitChars {cs : List Char} (hne : cs ≠ [])
    (hdigit : cs.all Char.isDigit = true) (hzero : cs.head? = some '0' → cs.length = 1) :
    Nat.toDigits 10 (Nat.ofDigitChars 10 cs 0) = cs := by
  induction cs using List.reverseRecOn with
  | nil => exact absurd rfl hne
  | append_singleton front c ih =>
    rw [List.all_append, Bool.and_eq_true] at hdigit
    obtain ⟨hlt, hchar⟩ := digitChar_sub_of_isDigit (by simpa using hdigit.2)
    have hlast : ∀ v, Nat.ofDigitChars 10 [c] v = 10 * v + (c.toNat - 48) := fun v => by
      simp [Nat.ofDigitChars_cons]
    rw [Nat.ofDigitChars_append, hlast]
    cases front with
    | nil => simp [Nat.toDigits_of_lt_base hlt, hchar]
    | cons d front =>
      have hhead : d ≠ '0' := by
        rintro rfl
        simpa using hzero rfl
      have hfront := ih (by simp) hdigit.1 (fun h => absurd (Option.some.inj h) hhead)
      -- the value of the digits before the last one is not zero
      have hpos : 0 < Nat.ofDigitChars 10 (d :: front) 0 := by
        refine Nat.pos_of_ne_zero fun hzero => ?_
        rw [hzero, Nat.toDigits_zero] at hfront
        exact hhead (List.cons.inj hfront).1.symm
      rw [← Nat.toDigits_append_toDigits (by decide) hpos hlt, hfront,
        Nat.toDigits_of_lt_base hlt, hchar]

/-- A key that the scan takes for an integer: digits, without zeroes before them, and their value,
which may have been cut, is not above the greatest one. -/
structure IntegerKey (key : ChildKey) (maxKey : ℕ) : Prop where
  /-- There is a digit. -/
  ne_nil : key.name.toList ≠ []
  /-- There are digits only. -/
  digits : key.name.toList.all Char.isDigit = true
  /-- There is no leading zero. -/
  length_of_zero : key.name.toList.head? = some '0' → key.name.toList.length = 1
  /-- The value is bounded. -/
  le_maxKey : min (Nat.ofDigitChars 10 key.name.toList 0) NSIntegerMax ≤ maxKey

/-- An integer key below the greatest integer is the decimal of a number. -/
theorem IntegerKey.eq_indexKey {key : ChildKey} {maxKey : ℕ} (h : IntegerKey key maxKey)
    (hmax : maxKey < NSIntegerMax) : ∃ i ≤ maxKey, key = FSnapshotUtilities.indexKey i := by
  have hlist : key.name.toList = (Nat.repr (Nat.ofDigitChars 10 key.name.toList 0)).toList := by
    rw [Nat.toList_repr, toDigits_ofDigitChars h.ne_nil h.digits h.length_of_zero]
  have hname : key.name = Nat.repr (Nat.ofDigitChars 10 key.name.toList 0) :=
    String.toList_inj.mp hlist
  refine ⟨Nat.ofDigitChars 10 key.name.toList 0, ?_, ext_name hname⟩
  rcases min_le_iff.mp h.le_maxKey with hle | hle
  · exact hle
  · exact absurd hle (Nat.not_le.mpr hmax)

/-- A key of decimal digits only has no other digits than those of ASCII. -/
def AsciiDigits (key : ChildKey) : Prop :=
  key.name.toList.all isDecimalDigit = true → key.name.toList.all Char.isDigit = true

instance : DecidablePred AsciiDigits := fun key =>
  inferInstanceAs (Decidable (key.name.toList.all isDecimalDigit = true → _))

/-- The integer of a string of digits of ASCII is their value. -/
theorem intForString_eq_some {name : String} (hascii : name.toList.all isDecimalDigit = true →
    name.toList.all Char.isDigit = true) {keyAsInt : ℕ} (h : intForString name = some keyAsInt) :
    name.toList ≠ [] ∧ name.toList.all Char.isDigit = true ∧
      keyAsInt = min (Nat.ofDigitChars 10 name.toList 0) NSIntegerMax := by
  unfold intForString at h
  split at h
  · rename_i hdecimal
    have hdigits := hascii hdecimal
    -- the scan stops at nothing
    have hscan : name.toList.takeWhile Char.isDigit = name.toList :=
      List.takeWhile_eq_self_iff.mpr (List.all_eq_true.mp hdigits)
    unfold scanInteger at h
    rw [hscan] at h
    split at h
    · cases h
    · rename_i d rest hcons
      rw [hcons]
      exact ⟨by simp, hcons ▸ hdigits, (Option.some.inj h).symm⟩
  · cases h

/-- The scan goes on taking the keys for integers only after one that is. -/
theorem integerKey_of_next {s : KeyScan} {key : ChildKey} (hascii : AsciiDigits key)
    (h : (s.next key).allIntegerKeys = true) :
    s.allIntegerKeys = true ∧ s.maxKey ≤ (s.next key).maxKey ∧
      IntegerKey key (s.next key).maxKey := by
  unfold KeyScan.next at h ⊢
  cases hs : s.allIntegerKeys with
  | false => simp [hs] at h
  | true =>
    simp only [hs, Bool.not_true, Bool.false_eq_true, if_false] at h ⊢
    split at h
    · cases h
    · rename_i hzeroes
      rw [if_neg hzeroes]
      cases hint : intForString key.name with
      | none => simp [hint] at h
      | some keyAsInt =>
        obtain ⟨hne, hdigits, rfl⟩ := intForString_eq_some hascii hint
        -- a key that starts with a zero is the zero alone
        refine ⟨trivial, le_max_left _ _, ⟨hne, hdigits, fun hhead => ?_, le_max_right _ _⟩⟩
        have hpos : 0 < key.name.toList.length := List.length_pos_of_ne_nil hne
        have hle : ¬key.name.toList.length > 1 := fun hlong => hzeroes ⟨hhead, hlong⟩
        omega

/-- If the scan takes all keys for integers they are. -/
theorem foldl_next_spec {keys : List ChildKey} (hascii : ∀ key ∈ keys, AsciiDigits key)
    {s : KeyScan} (h : (keys.foldl KeyScan.next s).allIntegerKeys = true) :
    s.allIntegerKeys = true ∧ s.maxKey ≤ (keys.foldl KeyScan.next s).maxKey ∧
      ∀ key ∈ keys, IntegerKey key (keys.foldl KeyScan.next s).maxKey := by
  induction keys generalizing s with
  | nil => exact ⟨h, le_rfl, by simp⟩
  | cons k keys ih =>
    rw [List.forall_mem_cons] at hascii
    obtain ⟨hnext, hmax, hkeys⟩ := ih hascii.2 h
    obtain ⟨hs, hle, hkey⟩ := integerKey_of_next hascii.1 hnext
    refine ⟨hs, hle.trans hmax, fun k' hk' => ?_⟩
    rcases List.mem_cons.mp hk' with rfl | hk'
    · exact { hkey with le_maxKey := hkey.le_maxKey.trans hmax }
    · exact hkeys k' hk'

/-! ## Exported values -/

namespace Payload

mutual

/-- A value as the app has it. -/
def toValue : Payload → Value
  | .null => .null
  | .scalar s => .scalar s
  | .array elements => .array (toValues elements)
  | .dict entries => .dict (toEntries entries)

/-- The elements of an array. -/
def toValues : List Payload → List Value
  | [] => []
  | element :: rest => element.toValue :: toValues rest

/-- The entries of a dictionary. -/
def toEntries : List (ChildKey × Payload) → List (String × Value)
  | [] => []
  | (key, value) :: rest => (key.name, value.toValue) :: toEntries rest

end

theorem toValues_eq_map (elements : List Payload) : toValues elements = elements.map toValue := by
  induction elements with
  | nil => rfl
  | cons element rest ih => rw [toValues, ih, List.map_cons]

theorem toEntries_eq_map (entries : List (ChildKey × Payload)) :
    toEntries entries = entries.map fun e => (e.1.name, e.2.toValue) := by
  induction entries with
  | nil => rfl
  | cons e rest ih => rw [toEntries, ih, List.map_cons]

end Payload

namespace FNode

theorem valEntries_eq_map (entries : List (ChildKey × FNode LeafValue)) (exp : Bool) :
    valEntries entries exp = entries.map fun e => (e.1, e.2.valForExport exp) := by
  induction entries with
  | nil => rfl
  | cons e rest ih => rw [valEntries, ih, List.map_cons]

/-- A node of stored data: each leaf holds a scalar, and no key is made of decimal digits that are
not all of ASCII. -/
inductive Plain : FNode LeafValue → Prop
  | empty : Plain .empty
  | leaf (s : Scalar) (priority : FNode LeafValue) : Plain (.leaf (.scalar s) priority)
  | children {entries : List (ChildKey × FNode LeafValue)} (priority : FNode LeafValue) :
      (∀ e ∈ entries, AsciiDigits e.1) → (∀ e ∈ entries, Plain e.2) →
      Plain (.children entries priority)

/-- The child of a name in the exported children. -/
theorem lookup_valEntries_eq_some {entries : List (ChildKey × FNode LeafValue)} {k : ChildKey}
    {value : Payload} (h : (valEntries entries false).lookup k = some value) :
    ∃ e ∈ entries, e.1 = k ∧ value = e.2.val := by
  obtain ⟨front, back, hsplit, -⟩ := List.lookup_eq_some_iff.mp h
  have hmem : (k, value) ∈ valEntries entries false := by simp [hsplit]
  rw [valEntries_eq_map] at hmem
  obtain ⟨e, he, heq⟩ := List.mem_map.mp hmem
  cases heq
  exact ⟨e, he, rfl, rfl⟩

/-- The exported child of an entry. -/
theorem lookup_valEntries_of_mem {entries : List (ChildKey × FNode LeafValue)}
    (hs : SortedDict.Sorted keyComparator entries) {e : ChildKey × FNode LeafValue}
    (he : e ∈ entries) : (valEntries entries false).lookup e.1 = some e.2.val := by
  have hnodup : ((valEntries entries false).map Prod.fst).Nodup := by
    rw [valEntries_eq_map, List.map_map]
    exact hs.nodup_keys
  refine (AssocList.lookup_eq_some_iff_mem hnodup).mpr ?_
  rw [valEntries_eq_map]
  exact List.mem_map.mpr ⟨e, he, rfl⟩

/-- The value of a node is an array only if all keys are indices. -/
theorem val_children_cases {entries : List (ChildKey × FNode LeafValue)}
    (priority : FNode LeafValue) (hne : entries ≠ [])
    (hdigits : ∀ e ∈ entries, AsciiDigits e.1) :
    (children entries priority).val = .dict (valEntries entries false) ∨
      ∃ maxKey, (children entries priority).val =
          .array ((List.range (maxKey + 1)).map fun i =>
            ((valEntries entries false).lookup (FSnapshotUtilities.indexKey i)).getD .null) ∧
        ∀ e ∈ entries, ∃ i ≤ maxKey, e.1 = FSnapshotUtilities.indexKey i := by
  have hempty : entries.isEmpty = false := by simpa using hne
  have hascii : ∀ key ∈ entries.map Prod.fst, AsciiDigits key := by
    intro key hkey
    obtain ⟨e, he, rfl⟩ := List.mem_map.mp hkey
    exact hdigits e he
  rw [val, valForExport, hempty]
  simp only [Bool.false_eq_true, if_false, Bool.not_false, Bool.true_and, Bool.false_and]
  split
  · rename_i harray
    obtain ⟨hint, hmax⟩ := Bool.and_eq_true_iff.mp harray
    refine .inr ⟨_, rfl, fun e he => ?_⟩
    have hkey := (foldl_next_spec hascii hint).2.2 e.1 (List.mem_map_of_mem he)
    refine hkey.eq_indexKey ?_
    -- twice the number of keys is an `int`, and so is below the greatest integer
    have hbound := (of_decide_eq_true hmax).trans (CInt.wrap_lt _)
    simp only [NSIntegerMax]
    omega
  · exact .inl rfl

/-- A node that is not empty has a value. -/
theorem exists_val {n : FNode LeafValue} (hn : n.WellFormed) (hp : n.Plain) (hne : n ≠ .empty) :
    n.val.toValue.exists_ = true := by
  cases hp with
  | empty => exact absurd rfl hne
  | leaf s priority => rfl
  | @children entries priority hdigits _ =>
    have hentries : entries ≠ [] := by
      cases hn with
      | children hne => exact hne
    rcases val_children_cases priority hentries hdigits with hval | ⟨_, hval, -⟩
    · rw [hval]; rfl
    · rw [hval]; rfl

/-- The children of the value of a node are the values of its children, under the names of their
keys. -/
theorem mem_children_val {entries : List (ChildKey × FNode LeafValue)} {priority : FNode LeafValue}
    (hn : (children entries priority).WellFormed) (hp : (children entries priority).Plain)
    {name : String} {v : Value} :
    (name, v) ∈ (children entries priority).val.toValue.children ↔
      ∃ e ∈ entries, e.1.name = name ∧ e.2.val.toValue = v := by
  cases hp with
  | children _ hdigits hplain =>
    cases hn with
    | children hne hs hkey hce hwf hprio =>
      rcases val_children_cases priority hne hdigits with hval | ⟨maxKey, hval, hall⟩
      · rw [hval, Payload.toValue, Payload.toEntries_eq_map, valEntries_eq_map]
        simp only [Value.children, List.map_map, List.mem_map, Function.comp_apply, Prod.mk.injEq]
        exact Iff.rfl
      · rw [hval, Payload.toValue, Payload.toValues_eq_map, Value.mem_children_array_iff]
        simp only [List.map_map, List.getElem?_map, Option.map_eq_some_iff,
          List.getElem?_eq_some_iff, List.length_range, List.getElem_range]
        constructor
        · rintro ⟨i, ⟨j, ⟨hj, rfl⟩, hvalue⟩, rfl, hexists⟩
          cases hlookup : (valEntries entries false).lookup (FSnapshotUtilities.indexKey i) with
          | none =>
            -- an index without an entry holds null, and is no child
            simp only [Function.comp_apply, hlookup] at hvalue
            rw [← hvalue] at hexists
            cases hexists
          | some value =>
            obtain ⟨e, he, hek, rfl⟩ := lookup_valEntries_eq_some hlookup
            simp only [Function.comp_apply, hlookup] at hvalue
            exact ⟨e, he, congrArg ChildKey.name hek, hvalue⟩
        · rintro ⟨e, he, rfl, rfl⟩
          -- each entry has an index below the length of the array
          obtain ⟨i, hi, hek⟩ := hall e he
          refine ⟨i, ⟨i, ⟨by omega, rfl⟩, ?_⟩, congrArg ChildKey.name hek,
            exists_val (hwf e he) (hplain e he) (hce e he)⟩
          rw [Function.comp_apply, ← hek, lookup_valEntries_of_mem hs he]
          rfl

/-- The exported value of a node has distinct keys on each level. -/
theorem nested_val {n : FNode LeafValue} (hn : n.WellFormed) (hp : n.Plain) :
    n.val.toValue.Nested := by
  induction hp with
  | empty => exact .null
  | leaf s priority => exact .scalar s
  | @children entries priority hdigits hplain ih =>
    cases hn with
    | children hne hs hkey hce hwf hprio =>
      rcases val_children_cases priority hne hdigits with hval | ⟨maxKey, hval, -⟩
      · -- a dictionary has the keys of the entries
        rw [hval, Payload.toValue, Payload.toEntries_eq_map, valEntries_eq_map, List.map_map]
        refine .dict ?_ fun e he => ?_
        · rw [List.map_map]
          have hnames := hs.nodup_keys.map (f := ChildKey.name) fun a b h => ext_name h
          rw [List.map_map] at hnames
          exact hnames
        · obtain ⟨e', he', rfl⟩ := List.mem_map.mp he
          exact ih e' he' (hwf e' he')
      · -- an array has null at the indices without an entry
        rw [hval, Payload.toValue, Payload.toValues_eq_map, List.map_map]
        refine .array fun v hv => ?_
        obtain ⟨i, -, rfl⟩ := List.mem_map.mp hv
        rw [Function.comp_apply]
        cases hlookup : (valEntries entries false).lookup (FSnapshotUtilities.indexKey i) with
        | none => exact .null
        | some value =>
          obtain ⟨e, he, -, rfl⟩ := lookup_valEntries_eq_some hlookup
          exact ih e he (hwf e he)

end FNode

/-! ## The store of a node -/

/-- The scalar of a leaf. -/
def LeafValue.asScalar : LeafValue → Option Scalar
  | scalar s => some s
  | _ => none

/-- The keys with the names of a path. -/
def keyPath : Path → Option (List ChildKey)
  | [] => some []
  | name :: path =>
    if h : ¬IsNegativeZero (unichars name) then (keyPath path).map (⟨name, h⟩ :: ·) else none

@[simp] theorem keyPath_map_name (q : List ChildKey) : keyPath (q.map ChildKey.name) = some q := by
  induction q with
  | nil => rfl
  | cons k q ih => rw [List.map_cons, keyPath, dif_pos k.notNegativeZero, ih]; rfl

theorem keyPath_map_name_append (q : List ChildKey) (path : Path) :
    keyPath (q.map ChildKey.name ++ path) = (keyPath path).map (q ++ ·) := by
  induction q with
  | nil => simp
  | cons k q ih =>
    rw [List.map_cons, List.cons_append, keyPath, dif_pos k.notNegativeZero, ih, Option.map_map]
    rfl

theorem map_name_of_keyPath {path : Path} {q : List ChildKey} (h : keyPath path = some q) :
    q.map ChildKey.name = path := by
  induction path generalizing q with
  | nil => cases h; rfl
  | cons name path ih =>
    rw [keyPath] at h
    split at h
    · obtain ⟨q', hq', rfl⟩ := Option.map_eq_some_iff.mp h
      rw [List.map_cons, ih hq']
    · cases h

/-- A store of leaves by keys, as one by the names of the keys. -/
def nameStore (s : Store ChildKey LeafValue) : Database :=
  fun path => (keyPath path).bind fun q => (s q).bind LeafValue.asScalar

/-- An operation on a store by keys, as one by the names of the keys. -/
def nameOp : Op ChildKey LeafValue → Op String Scalar
  | .write p v => .write (p.map ChildKey.name) (nameStore v)
  | .remove p => .remove (p.map ChildKey.name)

@[simp] theorem nameStore_map_name (s : Store ChildKey LeafValue) (q : List ChildKey) :
    nameStore s (q.map ChildKey.name) = (s q).bind LeafValue.asScalar := by
  rw [nameStore, keyPath_map_name, Option.bind_some]

/-- What is not the path of keys has no leaf. -/
theorem nameStore_of_keyPath_eq_none {path : Path} (h : keyPath path = none)
    (s : Store ChildKey LeafValue) : nameStore s path = none := by
  rw [nameStore, h, Option.bind_none]

/-- Names continue each other as their keys do. -/
theorem map_name_prefix_iff {p q : List ChildKey} :
    p.map ChildKey.name <+: q.map ChildKey.name ↔ p <+: q :=
  List.prefix_map_iff_of_injective fun _ _ => ext_name

/-- An operation on the keys is the operation on their names. -/
theorem nameStore_apply (op : Op ChildKey LeafValue) (s : Store ChildKey LeafValue) :
    nameStore (op.apply s) = (nameOp op).apply (nameStore s) := by
  funext path
  cases hpath : keyPath path with
  | some q =>
    -- a path of names of keys is looked up under the keys
    obtain rfl := map_name_of_keyPath hpath
    rw [nameStore_map_name]
    cases op with
    | write p v =>
      simp only [Op.apply, nameOp, map_name_prefix_iff, List.length_map, nameStore_map_name,
        ← List.map_drop]
      split_ifs <;> rfl
    | remove p =>
      simp only [Op.apply, nameOp, map_name_prefix_iff, nameStore_map_name]
      split_ifs <;> rfl
  | none =>
    -- another path holds nothing, before and after
    rw [nameStore_of_keyPath_eq_none hpath]
    cases op with
    | write p v =>
      simp only [Op.apply, nameOp, nameStore_of_keyPath_eq_none hpath, ite_self]
      split
      · rename_i hpre
        obtain ⟨rest, rfl⟩ := hpre
        rw [keyPath_map_name_append, Option.map_eq_none_iff] at hpath
        rw [List.drop_left, nameStore_of_keyPath_eq_none hpath]
      · rfl
    | remove p => simp only [Op.apply, nameOp, nameStore_of_keyPath_eq_none hpath, ite_self]

/-- Operations on the keys are the operations on their names. -/
theorem nameStore_applyAll (ops : List (Op ChildKey LeafValue)) (s : Store ChildKey LeafValue) :
    nameStore (applyAll ops s) = applyAll (ops.map nameOp) (nameStore s) := by
  induction ops generalizing s with
  | nil => rfl
  | cons op ops ih => rw [applyAll_cons, ih, nameStore_apply, List.map_cons, applyAll_cons]

namespace FNode

/-- The store of the leaves of a node, by the names of their keys. -/
def database (n : FNode LeafValue) : Database := nameStore n.leaves

@[simp] theorem database_map_name (n : FNode LeafValue) (q : List ChildKey) :
    n.database (q.map ChildKey.name) = (n.leaves q).bind LeafValue.asScalar :=
  nameStore_map_name n.leaves q

/-- Below a path, the store of a node is that of the node at the path. -/
theorem database_append (n : FNode LeafValue) {q : List ChildKey} (hq : priorityKey ∉ q)
    (path : Path) : n.database (q.map ChildKey.name ++ path) = (n.getChild q).database path := by
  rw [database, database, nameStore, nameStore, keyPath_map_name_append, Option.bind_map]
  congr 1
  funext q'
  exact congrArg (·.bind LeafValue.asScalar) (leaves_append hq q' n)

/-- A leaf of the store is one of the node. -/
theorem exists_of_database_eq_some {n : FNode LeafValue} {path : Path} {s : Scalar}
    (h : n.database path = some s) :
    ∃ q : List ChildKey, q.map ChildKey.name = path ∧ n.leaves q = some (.scalar s) := by
  obtain ⟨q, hq, h⟩ := Option.bind_eq_some_iff.mp h
  obtain ⟨value, hvalue, hs⟩ := Option.bind_eq_some_iff.mp h
  cases value with
  | scalar s' =>
    obtain rfl := Option.some.inj hs
    exact ⟨q, map_name_of_keyPath hq, hvalue⟩
  | _ => cases hs

/-- Below a leaf there is no other. -/
theorem leaves_leaf_cons (value : LeafValue) (priority : FNode LeafValue) (k : ChildKey)
    (q : List ChildKey) : (leaf value priority).leaves (k :: q) = none := by
  by_cases hk : k = priorityKey
  · simp [leaves, hk]
  · simp [leaves, getChild, hk, leafValue]

/-- The leaves of a node with children are below the keys of its entries. -/
theorem exists_mem_of_leaves_cons {entries : List (ChildKey × FNode LeafValue)}
    {priority : FNode LeafValue} (hn : (children entries priority).WellFormed) {k : ChildKey}
    {q : List ChildKey} {value : LeafValue}
    (h : (children entries priority).leaves (k :: q) = some value) :
    ∃ e ∈ entries, e.1 = k := by
  by_cases hk : k = priorityKey
  · simp [leaves, hk] at h
  · have hnotMem : priorityKey ∉ [k] := by simpa using Ne.symm hk
    rw [← List.singleton_append, leaves_append hnotMem, getChild_cons hk, getChild_nil] at h
    have hne : (children entries priority).getImmediateChild k ≠ .empty := by
      intro hempty
      rw [hempty, leaves_empty] at h
      cases h
    have hget := hn.get_eq_some_iff.mpr ⟨hk, hne, rfl⟩
    obtain ⟨e, he, heq, -⟩ := SortedDict.exists_mem_of_get_eq_some hget
    exact ⟨e, he, (Std.LawfulEqCmp.eq_of_compare heq).symm⟩

/-- The leaves of the exported value of a node are those of the node, also when the value is an
array. -/
theorem leaf_val {n : FNode LeafValue} (hn : n.WellFormed) (hp : n.Plain) (path : Path) :
    n.val.toValue.leaf path = n.database path := by
  induction hp generalizing path with
  | empty =>
    have hnone : (empty : FNode LeafValue).database path = none := by
      simp [database, nameStore]
    rw [hnone]
    cases path <;> rfl
  | leaf s priority =>
    cases path with
    | nil => rfl
    | cons name path =>
      refine (Option.eq_none_iff_forall_not_mem.mpr fun s' hs' => ?_).symm
      obtain ⟨q, hq, hleaf⟩ := exists_of_database_eq_some hs'
      cases q with
      | nil => cases hq
      | cons k q => rw [leaves_leaf_cons] at hleaf; cases hleaf
  | @children entries priority hdigits hplain ih =>
    have hplain' : (children entries priority).Plain := .children priority hdigits hplain
    have hwf : ∀ e ∈ entries, e.2.WellFormed := by
      cases hn with
      | children _ _ _ _ hwf => exact hwf
    cases path with
    | nil =>
      have hne : entries ≠ [] := by
        cases hn with
        | children hne => exact hne
      rcases val_children_cases priority hne hdigits with hval | ⟨_, hval, -⟩
      · rw [hval]; rfl
      · rw [hval]; rfl
    | cons name path =>
      rw [Value.leaf_cons]
      have hnodup := (nested_val hn hplain').nodup_keys
      cases hlookup : (children entries priority).val.toValue.children.lookup name with
      | some w =>
        have hmem := (AssocList.lookup_eq_some_iff_mem hnodup).mp hlookup
        -- the exported child is that of a child of the node, under the same key
        obtain ⟨e, he, rfl, rfl⟩ := (mem_children_val hn hplain').mp hmem
        rw [Option.bind_some, ih e he (hwf e he) path, database, database, nameStore, nameStore,
          keyPath, dif_pos e.1.notNegativeZero, Option.bind_map]
        congr 1
        funext q
        exact congrArg (·.bind LeafValue.asScalar)
          (FSnapshotUtilities.leaves_of_mem hn he q).1.symm
      | none =>
        rw [Option.bind_none]
        refine (Option.eq_none_iff_forall_not_mem.mpr fun s hs => ?_).symm
        obtain ⟨q, hq, hleaf⟩ := exists_of_database_eq_some hs
        cases q with
        | nil => cases hq
        | cons k q =>
          obtain ⟨rfl, -⟩ := List.cons.inj hq
          obtain ⟨e, he, rfl⟩ := exists_mem_of_leaves_cons hn hleaf
          have hmem := (mem_children_val hn hplain').mpr ⟨e, he, rfl, rfl⟩
          rw [(AssocList.lookup_eq_some_iff_mem hnodup).mpr hmem] at hlookup
          cases hlookup

/-! ## Reads -/

theorem Plain.getImmediateChild {n : FNode LeafValue} (hn : n.WellFormed) (hp : n.Plain)
    {k : ChildKey} (hk : k ≠ priorityKey) : (n.getImmediateChild k).Plain := by
  cases hp with
  | empty => exact .empty
  | leaf s priority =>
    simp only [FNode.getImmediateChild, hk, if_false]
    exact .empty
  | @children entries priority _ hplain =>
    simp only [FNode.getImmediateChild, hk, if_false]
    cases hget : SortedDict.get keyComparator k entries with
    | none => exact .empty
    | some m =>
      obtain ⟨e, he, -, rfl⟩ := SortedDict.exists_mem_of_get_eq_some hget
      exact hplain e he

/-- A node in a plain one is plain. -/
theorem Plain.getChild {n : FNode LeafValue} (hn : n.WellFormed) (hp : n.Plain)
    {q : List ChildKey} (hq : priorityKey ∉ q) : (n.getChild q).Plain := by
  induction q generalizing n with
  | nil => rwa [getChild_nil]
  | cons k q ih =>
    rw [List.mem_cons, not_or] at hq
    rw [getChild_cons (Ne.symm hq.1)]
    exact ih (hn.getImmediateChild k) (hp.getImmediateChild hn (Ne.symm hq.1)) hq.2

/-- The exported value of a node has a leaf in each of its nodes, unless the node is empty. -/
theorem filled_val {n : FNode LeafValue} (hn : n.WellFormed) (hp : n.Plain) (hne : n ≠ .empty) :
    n.val.toValue.Filled := by
  induction hp with
  | empty => exact absurd rfl hne
  | leaf s priority => exact .scalar s
  | @children entries priority hdigits hplain ih =>
    have hplain' : (children entries priority).Plain := .children priority hdigits hplain
    -- each child of the value is that of an entry, which is not empty
    have hchildren : ∀ e ∈ (children entries priority).val.toValue.children, e.2.Filled := by
      rintro ⟨name, v⟩ he
      obtain ⟨e, hmem, rfl, rfl⟩ := (mem_children_val hn hplain').mp he
      cases hn with
      | children _ _ _ hce hwf _ => exact ih e hmem (hwf e hmem) (hce e hmem)
    have hentries : entries ≠ [] := by
      cases hn with
      | children hne => exact hne
    have hsome : (children entries priority).val.toValue.children ≠ [] := by
      obtain ⟨e, he⟩ := List.exists_mem_of_ne_nil entries hentries
      exact List.ne_nil_of_mem ((mem_children_val hn hplain').mpr ⟨e, he, rfl, rfl⟩)
    rcases val_children_cases priority hentries hdigits with hval | ⟨_, hval, -⟩
    · rw [hval] at hchildren hsome ⊢
      exact .dict hsome hchildren
    · rw [hval] at hchildren hsome ⊢
      exact .array hsome hchildren

/-- A read at a path: the exported value of the node there is a snapshot of the store. -/
def snapshot {n : FNode LeafValue} (hn : n.WellFormed) (hp : n.Plain) {q : List ChildKey}
    (hq : priorityKey ∉ q) : FilledSnapshot n.database (q.map ChildKey.name) where
  value := (n.getChild q).val.toValue
  nested := nested_val (hn.getChild q) (hp.getChild hn hq)
  leaf_eq path := by rw [leaf_val (hn.getChild q) (hp.getChild hn hq), database_append n hq]
  filled := by
    by_cases hempty : n.getChild q = .empty
    · rw [hempty]
      exact .inl rfl
    · exact .inr (filled_val (hn.getChild q) (hp.getChild hn hq) hempty)

end FNode

/-! ## Nodes of values -/

/-- A value without metadata: the keys of its dictionaries are distinct, and none starts with a
dot. -/
inductive Payload.Plain : Payload → Prop
  | null : Payload.Plain .null
  | scalar (s : Scalar) : Payload.Plain (.scalar s)
  | array {elements : List Payload} : (∀ v ∈ elements, Payload.Plain v) →
      Payload.Plain (.array elements)
  | dict {entries : List (ChildKey × Payload)} : (entries.map Prod.fst).Nodup →
      (∀ e ∈ entries, e.1.name.toList.head? ≠ some '.') → (∀ e ∈ entries, Payload.Plain e.2) →
      Payload.Plain (.dict entries)

/-- A value without metadata has distinct keys on each level. -/
theorem Payload.Plain.nested {value : Payload} (h : value.Plain) : value.toValue.Nested := by
  induction h with
  | null => exact .null
  | scalar s => exact .scalar s
  | array _ ih =>
    rw [toValue, toValues_eq_map]
    refine .array fun v hv => ?_
    obtain ⟨element, helement, rfl⟩ := List.mem_map.mp hv
    exact ih element helement
  | dict hnodup _ _ ih =>
    rw [toValue, toEntries_eq_map]
    refine .dict ?_ fun e he => ?_
    · have hnames := hnodup.map (f := ChildKey.name) fun a b h => ext_name h
      rw [List.map_map] at hnames ⊢
      exact hnames
    · obtain ⟨e', he', rfl⟩ := List.mem_map.mp he
      exact ih e' he'

/-- The leaves of a value below a key are those of the child with that key. -/
theorem leaf_cons_eq_some_iff {v : Value} (h : v.Nested) {name : String} {path : Path}
    {x : LeafValue} :
    (v.leaf (name :: path)).map LeafValue.scalar = some x ↔
      ∃ w, (name, w) ∈ v.children ∧ (w.leaf path).map LeafValue.scalar = some x := by
  rw [Value.leaf_cons]
  constructor
  · intro hleaf
    obtain ⟨s, hs, rfl⟩ := Option.map_eq_some_iff.mp hleaf
    obtain ⟨w, hw, hs⟩ := Option.bind_eq_some_iff.mp hs
    exact ⟨w, (AssocList.lookup_eq_some_iff_mem h.nodup_keys).mp hw, by rw [hs]; rfl⟩
  · rintro ⟨w, hw, hleaf⟩
    rwa [(AssocList.lookup_eq_some_iff_mem h.nodup_keys).mpr hw, Option.bind_some]

namespace FSnapshotUtilities

variable {classDescription : Payload → String} {fn : String} {path : List String}

/-- The children of an accepted dictionary without metadata are the nodes of its values that are
not empty. -/
theorem entriesFrom_spec {entries : List (ChildKey × Payload)} {depth : ℕ}
    {children : List (ChildKey × FNode LeafValue)}
    (hdot : ∀ e ∈ entries, e.1.name.toList.head? ≠ some '.')
    (h : entriesFrom classDescription fn entries depth path = .ok children) :
    (children.map Prod.fst).Sublist (entries.map Prod.fst) ∧
      (∀ e ∈ children, ∃ value, (e.1, value) ∈ entries ∧
        nodeFrom classDescription fn value .null (depth + 1) (path ++ [e.1.name]) = .ok e.2) ∧
      ∀ e ∈ entries, ∃ childNode,
        nodeFrom classDescription fn e.2 .null (depth + 1) (path ++ [e.1.name]) =
            .ok childNode ∧ (childNode.isEmpty = false → (e.1, childNode) ∈ children) := by
  induction entries generalizing children with
  | nil => cases h; simp
  | cons entry rest ih =>
    obtain ⟨key, value⟩ := entry
    rw [entriesFrom] at h
    obtain ⟨⟨⟩, hvalid, h⟩ := bind_eq_ok.mp h
    rw [if_neg (hdot _ List.mem_cons_self)] at h
    obtain ⟨childNode, hchild, h⟩ := bind_eq_ok.mp h
    obtain ⟨others, hothers, h⟩ := bind_eq_ok.mp h
    obtain ⟨hsub, hmem, hall⟩ := ih (fun e he => hdot e (List.mem_cons_of_mem _ he)) hothers
    -- an empty node is left out of the children
    cases hempty : childNode.isEmpty with
    | true =>
      rw [hempty] at h
      cases h
      refine ⟨hsub.cons _, fun e he => ?_, fun e he => ?_⟩
      · obtain ⟨value', hvalue', hnode⟩ := hmem e he
        exact ⟨value', List.mem_cons_of_mem _ hvalue', hnode⟩
      · rcases List.mem_cons.mp he with rfl | he
        · exact ⟨childNode, hchild, fun hne => by simp [hempty] at hne⟩
        · exact hall e he
    | false =>
      rw [hempty] at h
      cases h
      refine ⟨hsub.cons_cons _, fun e he => ?_, fun e he => ?_⟩
      · rcases List.mem_cons.mp he with rfl | he
        · exact ⟨value, List.mem_cons_self, hchild⟩
        · obtain ⟨value', hvalue', hnode⟩ := hmem e he
          exact ⟨value', List.mem_cons_of_mem _ hvalue', hnode⟩
      · rcases List.mem_cons.mp he with rfl | he
        · exact ⟨childNode, hchild, fun _ => List.mem_cons_self⟩
        · obtain ⟨other, hnode, hother⟩ := hall e he
          exact ⟨other, hnode, fun hne => List.mem_cons_of_mem _ (hother hne)⟩

/-- The leaves of a node are those of the children it was given. -/
theorem leaves_childrenNode {children : List (ChildKey × FNode LeafValue)}
    {priority : FNode LeafValue} (hwf : (childrenNode children priority).WellFormed)
    (hnodup : (children.map Prod.fst).Nodup) :
    (childrenNode children priority).leaves [] = none ∧
      ∀ k q x, (childrenNode children priority).leaves (k :: q) = some x ↔
        ∃ childNode, (k, childNode) ∈ children ∧ childNode.leaves q = some x := by
  unfold childrenNode at hwf ⊢
  cases children with
  | nil => exact ⟨rfl, by simp⟩
  | cons c children =>
    simp only [List.isEmpty_cons, Bool.false_eq_true, if_false] at hwf ⊢
    refine ⟨rfl, fun k q x => ⟨fun h => ?_, ?_⟩⟩
    · -- a leaf lies below an entry, and the entries were given
      obtain ⟨e, he, rfl⟩ := FNode.exists_mem_of_leaves_cons hwf h
      rw [(leaves_of_mem hwf he q).1] at h
      exact ⟨e.2, (SortedDict.mem_insertAll he).resolve_right (by simp), h⟩
    · rintro ⟨childNode, hmem, h⟩
      -- a child that was given is found under its key, as no other has the key
      have hget : SortedDict.get keyComparator k
          (SortedDict.insertAll keyComparator (c :: children) []) = some childNode := by
        rw [SortedDict.get_insertAll hnodup, AssocList.lookup_of_mem hnodup hmem]
        rfl
      obtain ⟨e, he, heq, rfl⟩ := SortedDict.exists_mem_of_get_eq_some hget
      obtain rfl : k = e.1 := Std.LawfulEqCmp.eq_of_compare heq
      rw [(leaves_of_mem hwf he q).1, h]

/-- The leaves of the node of a dictionary are those of its values, when this holds of them. -/
theorem leaves_childrenNode_of_entriesFrom {entries : List (ChildKey × Payload)} {depth : ℕ}
    {children : List (ChildKey × FNode LeafValue)} {priority : FNode LeafValue}
    (hwf : (childrenNode children priority).WellFormed) (hnodup : (entries.map Prod.fst).Nodup)
    (hdot : ∀ e ∈ entries, e.1.name.toList.head? ≠ some '.')
    (h : entriesFrom classDescription fn entries depth path = .ok children)
    (ih : ∀ e ∈ entries, ∀ {n : FNode LeafValue}, nodeFrom classDescription fn e.2 .null (depth + 1)
      (path ++ [e.1.name]) = .ok n → ∀ q, n.leaves q =
        (e.2.toValue.leaf (q.map ChildKey.name)).map .scalar) :
    (childrenNode children priority).leaves [] = none ∧
      ∀ k q x, (childrenNode children priority).leaves (k :: q) = some x ↔
        ∃ value, (k, value) ∈ entries ∧
          (value.toValue.leaf (q.map ChildKey.name)).map .scalar = some x := by
  obtain ⟨hsub, hmem, hall⟩ := entriesFrom_spec hdot h
  obtain ⟨hnil, hcons⟩ := leaves_childrenNode hwf (hnodup.sublist hsub)
  refine ⟨hnil, fun k q x => (hcons k q x).trans ⟨?_, ?_⟩⟩
  · rintro ⟨childNode, hchild, hleaf⟩
    obtain ⟨value, hvalue, hnode⟩ := hmem _ hchild
    exact ⟨value, hvalue, (ih _ hvalue hnode q).symm.trans hleaf⟩
  · rintro ⟨value, hvalue, hleaf⟩
    obtain ⟨childNode, hnode, hchild⟩ := hall _ hvalue
    rw [← ih _ hvalue hnode q] at hleaf
    -- a child with a leaf is not left out
    have hne : childNode ≠ .empty := by
      rintro rfl
      rw [FNode.leaves_empty] at hleaf
      cases hleaf
    have hstorable := nodeFrom_storable classDescription fn _ hnode
    exact ⟨childNode, hchild (hstorable.wellFormed.isEmpty_eq_false hne), hleaf⟩

/-- The elements of an array under their indices. -/
theorem mem_map_indexKey_iff {elements : List Payload} {k : ChildKey} {element : Payload} :
    (k, element) ∈ elements.zipIdx.map (fun e => (indexKey e.2, e.1)) ↔
      ∃ i : ℕ, elements[i]? = some element ∧ k = indexKey i := by
  simp only [List.mem_map, Prod.exists, List.mk_mem_zipIdx_iff_getElem?, Prod.mk.injEq]
  constructor
  · rintro ⟨_, i, hget, rfl, rfl⟩
    exact ⟨i, hget, rfl⟩
  · rintro ⟨i, hget, rfl⟩
    exact ⟨element, i, hget, rfl, rfl⟩

theorem nodup_keys_map_indexKey (elements : List Payload) :
    ((elements.zipIdx.map fun e => (indexKey e.2, e.1)).map Prod.fst).Nodup := by
  have hindexKey : Function.Injective indexKey := fun i j h =>
    repr_injective (congrArg ChildKey.name h)
  have hindices := (List.nodup_zipIdx_map_snd elements).map hindexKey
  rwa [List.map_map] at hindices ⊢

/-- The leaves of an array below a key are those of the element with that index. -/
theorem leaf_array_cons_eq_some_iff {elements : List Payload}
    (hvalue : (Payload.array elements).Plain) {k : ChildKey} {q : List ChildKey} {x : LeafValue} :
    ((Payload.array elements).toValue.leaf ((k :: q).map ChildKey.name)).map .scalar = some x ↔
      ∃ element, (k, element) ∈ elements.zipIdx.map (fun e => (indexKey e.2, e.1)) ∧
        (element.toValue.leaf (q.map ChildKey.name)).map .scalar = some x := by
  rw [List.map_cons, leaf_cons_eq_some_iff hvalue.nested, Payload.toValue,
    Payload.toValues_eq_map]
  simp only [mem_map_indexKey_iff, Value.mem_children_array_iff, List.getElem?_map,
    Option.map_eq_some_iff]
  constructor
  · rintro ⟨w, ⟨i, ⟨element, hget, rfl⟩, hname, -⟩, s, hs, rfl⟩
    exact ⟨element, ⟨i, hget, ext_name hname⟩, s, hs, rfl⟩
  · -- an element with a leaf is not null, so the app sees it too
    rintro ⟨element, ⟨i, hget, rfl⟩, s, hs, rfl⟩
    refine ⟨element.toValue, ⟨i, ⟨element, hget, rfl⟩, rfl, ?_⟩, s, hs, rfl⟩
    cases element with
    | null => cases q <;> cases hs
    | _ => rfl

/-- The leaves of a dictionary below a key are those of the value with that key. -/
theorem leaf_dict_cons_eq_some_iff {entries : List (ChildKey × Payload)}
    (hvalue : (Payload.dict entries).Plain) {k : ChildKey} {q : List ChildKey} {x : LeafValue} :
    ((Payload.dict entries).toValue.leaf ((k :: q).map ChildKey.name)).map .scalar = some x ↔
      ∃ value, (k, value) ∈ entries ∧
        (value.toValue.leaf (q.map ChildKey.name)).map .scalar = some x := by
  rw [List.map_cons, leaf_cons_eq_some_iff hvalue.nested, Payload.toValue,
    Payload.toEntries_eq_map]
  simp only [Value.children, List.mem_map, Prod.mk.injEq, Option.map_eq_some_iff]
  constructor
  · rintro ⟨w, ⟨e, hmem, hname, rfl⟩, s, hs, rfl⟩
    obtain rfl : e.1 = k := ext_name hname
    exact ⟨e.2, hmem, s, hs, rfl⟩
  · rintro ⟨value, hmem, s, hs, rfl⟩
    exact ⟨value.toValue, ⟨(k, value), hmem, rfl, rfl⟩, s, hs, rfl⟩

variable (classDescription fn) in
/-- The leaves of a node made of a value without metadata are those of the value. -/
theorem leaves_nodeFrom {value : Payload} (hvalue : value.Plain) {aPriority : Payload} {depth : ℕ}
    {path : List String} {n : FNode LeafValue}
    (h : nodeFrom classDescription fn value aPriority depth path = .ok n) (q : List ChildKey) :
    n.leaves q = (value.toValue.leaf (q.map ChildKey.name)).map .scalar := by
  have hstorable := nodeFrom_storable classDescription fn _ h
  induction hvalue generalizing aPriority depth path n q with
  | null =>
    obtain ⟨⟨⟩, -, h⟩ := bind_eq_ok.mp h
    cases h
    rw [FNode.leaves_empty]
    cases q <;> rfl
  | scalar s =>
    obtain ⟨-, -, priority, -, rfl⟩ := nodeFrom_scalar_eq_ok h
    cases q with
    | nil => rfl
    | cons k q => rw [FNode.leaves_leaf_cons]; rfl
  | @array elements hplain ih =>
    obtain ⟨-, priority, children, -, hchildren, rfl⟩ := nodeFrom_array_eq_ok h
    -- the keys of an array are indices, so none belongs to the metadata
    have hdot : ∀ e ∈ elements.zipIdx.map (fun e => (indexKey e.2, e.1)),
        e.1.name.toList.head? ≠ some '.' := by
      intro e he
      obtain ⟨i, -, heq⟩ := mem_map_indexKey_iff.mp he
      rw [heq]
      exact head?_ne_dot_of_isValidKey (isValidKey_indexKey i)
    obtain ⟨hnil, hcons⟩ := leaves_childrenNode_of_entriesFrom hstorable.wellFormed
      (nodup_keys_map_indexKey elements) hdot hchildren fun e he n hnode q => by
        obtain ⟨i, hget, -⟩ := mem_map_indexKey_iff.mp he
        exact ih e.2 (List.mem_of_getElem? hget) hnode q
          (nodeFrom_storable classDescription fn _ hnode)
    cases q with
    | nil => exact hnil
    | cons k q =>
      exact Option.ext fun x =>
        (hcons k q x).trans (leaf_array_cons_eq_some_iff (.array hplain)).symm
  | @dict entries hnodup hdot hplain ih =>
    -- without metadata the dictionary makes no leaf
    have hlookup : ∀ {k : ChildKey}, k.name.toList.head? = some '.' → entries.lookup k = none := by
      intro k hk
      refine AssocList.lookup_eq_none_of_notMem_keys fun hmem => ?_
      obtain ⟨e, he, rfl⟩ := List.mem_map.mp hmem
      exact hdot e he hk
    obtain ⟨-, priority, -, ⟨hmetadata, -⟩ | ⟨children, hchildren, rfl⟩⟩ := nodeFrom_dict_eq_ok h
    · exact absurd hmetadata (by simp [hlookup (k := valueKey) (by decide),
        hlookup (k := serverValueKey) (by decide)])
    · obtain ⟨hnil, hcons⟩ := leaves_childrenNode_of_entriesFrom hstorable.wellFormed hnodup hdot
        hchildren fun e he n hnode q =>
          ih e he hnode q (nodeFrom_storable classDescription fn _ hnode)
      cases q with
      | nil => exact hnil
      | cons k q =>
        exact Option.ext fun x =>
          (hcons k q x).trans (leaf_dict_cons_eq_some_iff (.dict hnodup hdot hplain)).symm

end FSnapshotUtilities

/-- The children of a value are under keys. -/
theorem Payload.Plain.exists_of_mem_children {value : Payload} (hvalue : value.Plain)
    {name : String} {w : Value} (h : (name, w) ∈ value.toValue.children) :
    ∃ (k : ChildKey) (element : Payload),
      k.name = name ∧ element.toValue = w ∧ element.Plain := by
  cases hvalue with
  | null => cases h
  | scalar s => cases h
  | array hplain =>
    -- an element of an array is under its index
    rw [toValue, toValues_eq_map, Value.mem_children_array_iff] at h
    obtain ⟨i, hget, rfl, -⟩ := h
    rw [List.getElem?_map, Option.map_eq_some_iff] at hget
    obtain ⟨element, helement, rfl⟩ := hget
    exact ⟨FSnapshotUtilities.indexKey i, element, rfl, rfl,
      hplain element (List.mem_of_getElem? helement)⟩
  | dict _ _ hplain =>
    rw [toValue, toEntries_eq_map] at h
    obtain ⟨e, he, heq⟩ := List.mem_map.mp h
    cases heq
    exact ⟨e.1, e.2, rfl, rfl, hplain e he⟩

/-- The leaves of a value are at the ends of paths of keys. -/
theorem Payload.Plain.exists_map_name {value : Payload} (hvalue : value.Plain) {path : Path}
    {s : Scalar} (h : value.toValue.leaf path = some s) :
    ∃ q : List ChildKey, q.map ChildKey.name = path := by
  induction path generalizing value with
  | nil => exact ⟨[], rfl⟩
  | cons name path ih =>
    obtain ⟨w, hw, hrest⟩ := Option.bind_eq_some_iff.mp h
    have hmem := (AssocList.lookup_eq_some_iff_mem hvalue.nested.nodup_keys).mp hw
    obtain ⟨k, element, rfl, rfl, helement⟩ := hvalue.exists_of_mem_children hmem
    obtain ⟨q, rfl⟩ := ih helement hrest
    exact ⟨k :: q, rfl⟩

namespace FNode

/-- The store of a node made of a value without metadata is the store of the value. -/
theorem database_nodeFrom {classDescription : Payload → String} {fn : String} {value : Payload}
    (hvalue : value.Plain) {c : FNode LeafValue}
    (h : FSnapshotUtilities.nodeFrom classDescription fn value .null 0 [] = .ok c) :
    c.database = fun path => value.toValue.leaf path := by
  have hleaves := FSnapshotUtilities.leaves_nodeFrom classDescription fn hvalue h
  have hname : ∀ q : List ChildKey, c.database (q.map ChildKey.name) =
      value.toValue.leaf (q.map ChildKey.name) := by
    intro q
    rw [database_map_name, hleaves]
    cases value.toValue.leaf (q.map ChildKey.name) <;> rfl
  funext path
  cases hpath : keyPath path with
  | some q =>
    obtain rfl := map_name_of_keyPath hpath
    exact hname q
  | none =>
    -- a path that is not made of keys leads nowhere in the value either
    rw [database, nameStore_of_keyPath_eq_none hpath]
    refine (Option.eq_none_iff_forall_not_mem.mpr fun s hs => ?_).symm
    obtain ⟨q, rfl⟩ := hvalue.exists_map_name hs
    rw [keyPath_map_name] at hpath
    cases hpath

variable (classDescription : Payload → String) (fn : String)

/-- A value without metadata that is put at a path and read back, at the path or anywhere else: the
leaves of what is read are those that a write leaves in the store. -/
theorem leaf_val_updateChild {n c : FNode LeafValue} (hn : n.WellFormed) {value : Payload}
    (hvalue : value.Plain)
    (hc : FSnapshotUtilities.nodeFrom classDescription fn value .null 0 [] = .ok c)
    {p q : List ChildKey} (hp : priorityKey ∉ p) (hq : priorityKey ∉ q)
    (hplain : ((n.updateChild p c).getChild q).Plain) (path : Path) :
    ((n.updateChild p c).getChild q).val.toValue.leaf path =
      (if c.isEmpty then Op.remove (p.map ChildKey.name)
        else Op.write (p.map ChildKey.name) fun path => value.toValue.leaf path).apply n.database
          (q.map ChildKey.name ++ path) := by
  have hcwf : c.WellFormed :=
    (FSnapshotUtilities.nodeFrom_storable classDescription fn _ hc).wellFormed
  have hwf : (n.updateChild p c).WellFormed := hn.updateChild (writable_of_notMem hcwf hp)
  -- the operation on the names is that of the value
  have hop : nameOp (updateOp p c) = if c.isEmpty then Op.remove (p.map ChildKey.name)
      else Op.write (p.map ChildKey.name) fun path => value.toValue.leaf path := by
    rw [updateOp]
    split
    · rfl
    · rw [nameOp, ← database_nodeFrom hvalue hc]
      rfl
  rw [leaf_val (hwf.getChild q) hplain, ← database_append _ hq, ← hop, database,
    leaves_updateChild hn hcwf hp, nameStore_apply]
  rfl

/-- A dictionary of two indices is read back as an array with the same leaves. -/
theorem leaf_val_updateChild_array :
    let c : FNode LeafValue := .children [(⟨"0", by decide⟩, .leaf (.scalar (.int 5)) .empty),
      (⟨"1", by decide⟩, .leaf (.scalar (.int 6)) .empty)] .empty
    ((FNode.empty.updateChild [⟨"a", by decide⟩] c).getChild [⟨"a", by decide⟩]).val.toValue.leaf
      ["1"] = some (.int 6) := by
  intro c
  let value : Payload := .dict [(⟨"1", by decide⟩, .scalar (.int 6)),
    (⟨"0", by decide⟩, .scalar (.int 5))]
  have hvalue : value.Plain := by
    refine .dict (by decide) (by decide) fun e he => ?_
    simp only [List.mem_cons, List.not_mem_nil, or_false] at he
    rcases he with rfl | rfl
    · exact .scalar _
    · exact .scalar _
  have hplain : ((FNode.empty.updateChild [⟨"a", by decide⟩] c).getChild
      [⟨"a", by decide⟩]).Plain := by
    refine .children .empty (by decide +kernel) fun e he => ?_
    simp only [List.mem_cons, List.not_mem_nil, or_false] at he
    rcases he with rfl | rfl
    · exact .leaf _ _
    · exact .leaf _ _
  have h := leaf_val_updateChild (fun _ => "") "setValue:" .empty hvalue (c := c) rfl
    (p := [⟨"a", by decide⟩]) (q := [⟨"a", by decide⟩]) (by decide) (by decide) hplain ["1"]
  rw [h]
  rfl

end FNode

end LearnCode.FirebaseDatabase
