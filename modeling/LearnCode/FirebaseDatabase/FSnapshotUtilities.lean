import LearnCode.Firebase.Database
import LearnCode.FirebaseDatabase.NodeStore
import LearnCode.Library.CInt

/-!
# Nodes from values

How the client makes a snapshot node of a value, with the checks it does, and how it exports a node
as a value.

## Main definitions

* `Payload`: a value that is made a node, or exported from one;
* `LeafValue`: what a leaf holds;
* `nodeFrom`: the node of a value, or the exception;
* `valForExport`: the value of a node, with the priorities or without;
* `Storable d n`: a node that is accepted at depth `d`.

## Main results

* `nodeFrom_storable`: what is accepted is well formed and may be stored;
* `nodeFrom_valForExport`: a node that may be stored is made again of its export;
* `nodeFrom_export`: what was accepted is accepted again after its export, as the same node.
-/

namespace LearnCode.FirebaseDatabase

open ChildKey

/-- A value that is handed to the client, or that it hands out: the keys of its dictionaries are
those a child may have. -/
inductive Payload : Type where
  | null
  | scalar (s : Scalar)
  | array (elements : List Payload)
  | dict (entries : List (ChildKey × Payload))

/-- What holds of a value when it holds of its parts holds of all. -/
@[elab_as_elim]
theorem Payload.induction {P : Payload → Prop} (null : P .null) (scalar : ∀ s, P (.scalar s))
    (array : ∀ elements, (∀ v ∈ elements, P v) → P (.array elements))
    (dict : ∀ entries, (∀ e ∈ entries, P e.2) → P (.dict entries)) : ∀ value, P value
  | .null => null
  | .scalar s => scalar s
  | .array elements => array elements fun v _ => Payload.induction null scalar array dict v
  | .dict entries => dict entries fun e he =>
    have : sizeOf e.2 < sizeOf entries := by
      have hlt := List.sizeOf_lt_of_mem he
      rw [Prod.mk.sizeOf_spec] at hlt
      omega
    Payload.induction null scalar array dict e.2

/-- `kPayloadValue`. -/
def valueKey : ChildKey := ⟨".value", by decide⟩

/-- `kServerValueSubKey`. -/
def serverValueKey : ChildKey := ⟨".sv", by decide⟩

/-- The value of a leaf. -/
inductive LeafValue : Type where
  /-- `NSNull`, which is a leaf when it is given under ".value". -/
  | null
  | scalar (s : Scalar)
  /-- A value the server fills in. -/
  | serverValue (value : Payload)

/-- The value as it is held by a leaf. -/
def LeafValue.ofPayload : Payload → LeafValue
  | .null => .null
  | .scalar s => .scalar s
  | value => .serverValue value

/-- The value as it is exported. -/
def LeafValue.toPayload : LeafValue → Payload
  | null => .null
  | scalar s => .scalar s
  | serverValue value => value

/-- An exception. -/
structure NSException where
  /-- `name`. -/
  name : String
  /-- `reason`. -/
  reason : String

/-- `kFirebaseMaxObjectDepth`. -/
def kFirebaseMaxObjectDepth : ℕ := 1000

/-- `kFirebaseMaxLeafSize`. -/
def kFirebaseMaxLeafSize : ℕ := 1024 * 1024 * 10

namespace FValidation

/-- The start of a path, as exceptions show it. -/
def pathString (path : List String) : String := ".".intercalate (path.take 50)

/-- The exception for data that cannot be stored. -/
def invalidFirebaseData (fn reason : String) : NSException :=
  { name := "InvalidFirebaseData", reason := "(" ++ fn ++ ") " ++ reason }

/-- `validateFrom:isValidLeafValue:withPath:`. -/
def isValidLeafValue (fn : String) (path : List String) : Payload → Except NSException Bool
  | .scalar (.string theString) =>
    if theString.utf8ByteSize > kFirebaseMaxLeafSize then
      throw (invalidFirebaseData fn ("String exceeds max size of " ++
        toString kFirebaseMaxLeafSize ++ " utf8 bytes: " ++ pathString path))
    else return true
  | .scalar _ => return true
  | .dict dval =>
    if (dval.lookup serverValueKey).isSome then
      if dval.length > 1 then
        throw (invalidFirebaseData fn
          ("Cannot store other keys with server value keys." ++ pathString path ++ "."))
      else return true
    else return false
  | .null => return true
  | .array _ => return false

/-- `validateFrom:isValidPriorityValue:withPath:`. -/
def isValidPriorityValue (fn : String) (path : List String) : Payload → Except NSException Unit
  | .scalar (.bool _) =>
    throw (invalidFirebaseData fn
      ("Cannot store true/false as priority at path: " ++ pathString path ++ "."))
  | .scalar _ => return ()
  | .dict dval =>
    if (dval.lookup serverValueKey).isSome then
      if dval.length > 1 then
        throw (invalidFirebaseData fn
          ("Cannot store other keys with server value keys as priority at path: " ++
            pathString path ++ "."))
      else return ()
    else
      throw (invalidFirebaseData fn
        ("Cannot store an NSDictionary as priority at path: " ++ pathString path ++ "."))
  | .array _ =>
    throw (invalidFirebaseData fn
      ("Cannot store an NSArray as priority at path: " ++ pathString path ++ "."))
  | .null => return ()

/-- `validateFrom:validDictionaryKey:withPath:`. -/
def validDictionaryKey (fn : String) (path : List String) (key : ChildKey) :
    Except NSException Unit :=
  if key ≠ priorityKey ∧ key ≠ valueKey ∧ key ≠ serverValueKey ∧ isValidKey key.name = false then
    throw (invalidFirebaseData fn ("Invalid key in object at path: " ++ pathString path ++
      ". Keys must be non-empty and cannot contain '/' '.' '#' '$' '[' or ']'"))
  else return ()

end FValidation

namespace FSnapshotUtilities

open FValidation

/-- A string that starts with a digit is no negative zero. -/
theorem notNegativeZero_of_digits {s : String} (h : s.toList.all Char.isDigit = true) :
    ¬IsNegativeZero (unichars s) := by
  rintro ⟨hlen, -, heq⟩
  rw [unichars] at hlen heq
  cases hchars : s.toList with
  | nil => rw [hchars] at hlen; simp at hlen
  | cons c cs =>
    rw [hchars] at h heq
    have hdigit : c.isDigit = true := (Bool.and_eq_true_iff.mp h).1
    simp only [Char.isDigit, Bool.and_eq_true, decide_eq_true_eq] at hdigit
    have hlow : 48 ≤ c.toNat := hdigit.1
    have hhigh : c.toNat ≤ 57 := hdigit.2
    have hutf : utf16 c = [c.toNat] := by
      rw [utf16, if_pos (by omega)]
    rw [List.flatMap_cons, hutf] at heq
    have hhead : c.toNat = 45 := (List.cons.inj heq).1
    omega

/-- The key of an element of an array. -/
def indexKey (i : ℕ) : ChildKey where
  name := toString i
  notNegativeZero := notNegativeZero_of_digits (all_isDigit_toString i)

/-- The check of the depth in `internalNodeFrom:`. -/
def checkDepth (fn : String) (depth : ℕ) (path : List String) : Except NSException Unit :=
  if depth > kFirebaseMaxObjectDepth then
    throw { name := "InvalidFirebaseData"
            reason := "(" ++ fn ++ ") Max object depth exceeded: " ++
              ".".intercalate (path.take 100) ++ "..." }
  else return ()

/-- `nodeFrom:` of a priority that has been checked. -/
def priorityFrom : Payload → Except NSException (FNode LeafValue)
  | .null => return .empty
  | value => do
    let _ ← isValidLeafValue "nodeFrom:priority:" [] value
    return .leaf (.ofPayload value) .empty

/-- The priority of a dictionary: what it has under ".priority" comes before what is given. -/
def dictionaryPriority (fn : String) (path : List String) (given : FNode LeafValue) :
    Option Payload → Except NSException (FNode LeafValue)
  | some rawPriority => do
    isValidPriorityValue fn path rawPriority
    priorityFrom rawPriority
  | none => return given

/-- The node with the children of a dictionary. -/
def childrenNode (children : List (ChildKey × FNode LeafValue)) (priority : FNode LeafValue) :
    FNode LeafValue :=
  if children.isEmpty then .empty
  else
    .children (SortedDict.insertAll keyComparator children []) priority

/-- The exception for a value under ".value" that is no leaf; the description of its class is given
by `classDescription`. -/
def invalidLeafValueType (classDescription : Payload → String) (fn : String) (value : Payload) :
    NSException where
  name := "InvalidLeafValueType"
  reason := "(" ++ fn ++ ") Invalid data type used with .value. Can only use NSString and " ++
    "NSNumber or be null. Found " ++ classDescription value ++ " instead."

variable (classDescription : Payload → String) (fn : String)

mutual

/-- `internalNodeFrom:priority:withValidationFrom:atDepth:path:`; no priority is `null`. -/
def nodeFrom :
    Payload → (aPriority : Payload) → (depth : ℕ) → (path : List String) →
      Except NSException (FNode LeafValue)
  | .null, _, depth, path => do
    checkDepth fn depth path
    return .empty
  | .scalar s, aPriority, depth, path => do
    checkDepth fn depth path
    isValidPriorityValue fn path aPriority
    let priority ← priorityFrom aPriority
    let _ ← isValidLeafValue fn path (.scalar s)
    return .leaf (.scalar s) priority
  | .array elements, aPriority, depth, path => do
    checkDepth fn depth path
    isValidPriorityValue fn path aPriority
    let priority ← priorityFrom aPriority
    let children ← elementsFrom elements 0 depth path
    return childrenNode children priority
  | .dict entries, aPriority, depth, path => do
    checkDepth fn depth path
    isValidPriorityValue fn path aPriority
    let given ← priorityFrom aPriority
    let priority ← dictionaryPriority fn path given (entries.lookup priorityKey)
    match entries.lookup valueKey with
    | some value =>
      if ← isValidLeafValue fn path value then return .leaf (.ofPayload value) priority
      else throw (invalidLeafValueType classDescription fn value)
    | none =>
      if ← isValidLeafValue fn path (.dict entries) then
        return .leaf (.serverValue (.dict entries)) priority
      else
        let children ← entriesFrom entries depth path
        return childrenNode children priority

/-- The children of an array, from the index `i` on. -/
def elementsFrom :
    List Payload → (i depth : ℕ) → (path : List String) →
      Except NSException (List (ChildKey × FNode LeafValue))
  | [], _, _, _ => return []
  | element :: rest, i, depth, path => do
    let childNode ← nodeFrom element .null (depth + 1) (path ++ [toString i])
    let children ← elementsFrom rest (i + 1) depth path
    return if childNode.isEmpty then children else (indexKey i, childNode) :: children

/-- The children of a dictionary. -/
def entriesFrom :
    List (ChildKey × Payload) → (depth : ℕ) → (path : List String) →
      Except NSException (List (ChildKey × FNode LeafValue))
  | [], _, _ => return []
  | (key, value) :: rest, depth, path => do
    validDictionaryKey fn path key
    -- keys that start with a dot hold metadata
    if key.name.toList.head? = some '.' then entriesFrom rest depth path
    else
      let childNode ← nodeFrom value .null (depth + 1) (path ++ [key.name])
      let children ← entriesFrom rest depth path
      return if childNode.isEmpty then children else (key, childNode) :: children

end

end FSnapshotUtilities

/-! ## Export -/

/-- `NSIntegerMax`. -/
def NSIntegerMax : ℕ := 2 ^ 63 - 1

/-- The zeroes of Unicode: the decimal digits of each script follow its zero. -/
def decimalZeroes : List ℕ :=
  [0x30, 0x660, 0x6f0, 0x7c0, 0x966, 0x9e6, 0xa66, 0xae6, 0xb66, 0xbe6, 0xc66, 0xce6, 0xd66,
    0xde6, 0xe50, 0xed0, 0xf20, 0x1040, 0x1090, 0x17e0, 0x1810, 0x1946, 0x19d0, 0x1a80, 0x1a90,
    0x1b50, 0x1bb0, 0x1c40, 0x1c50, 0xa620, 0xa8d0, 0xa900, 0xa9d0, 0xa9f0, 0xaa50, 0xabf0,
    0xff10, 0x104a0, 0x10d30, 0x11066, 0x110f0, 0x11136, 0x111d0, 0x112f0, 0x11450, 0x114d0,
    0x11650, 0x116c0, 0x11730, 0x118e0, 0x11950, 0x11c50, 0x11d50, 0x11da0, 0x16a60, 0x16ac0,
    0x16b50, 0x1d7ce, 0x1d7d8, 0x1d7e2, 0x1d7ec, 0x1d7f6, 0x1e140, 0x1e2f0, 0x1e950, 0x1fbf0]

/-- `decimalDigitCharacterSet`: the digits of all scripts. -/
def isDecimalDigit (c : Char) : Bool :=
  decimalZeroes.any fun n => n ≤ c.toNat && c.toNat < n + 10

/-- `scanInteger:` on decimal digits: the value of those of ASCII that come first, if there is one,
which is cut at the greatest integer. -/
def scanInteger (digits : List Char) : Option ℕ :=
  match digits.takeWhile Char.isDigit with
  | [] => none
  | d :: rest => some (min (Nat.ofDigitChars 10 (d :: rest) 0) NSIntegerMax)

/-- `intForString:`: the integer that is scanned in a string of decimal digits. -/
def intForString (string : String) : Option ℕ :=
  if string.toList.all isDecimalDigit = true then scanInteger string.toList else none

/-- What the export of a node with children has found of the keys. -/
structure KeyScan where
  /-- `numKeys`, an `int`. -/
  numKeys : ℤ
  /-- `maxKey`. -/
  maxKey : ℕ
  /-- `allIntegerKeys`. -/
  allIntegerKeys : Bool

/-- The block of `valForExport:`, for one key. -/
def KeyScan.next (s : KeyScan) (key : ChildKey) : KeyScan :=
  let numKeys := CInt.wrap (s.numKeys + 1)
  if !s.allIntegerKeys then { s with numKeys }
  -- leading zeroes that are not exactly "0" are treated as strings
  else if key.name.toList.head? = some '0' ∧ key.name.toList.length > 1 then
    { s with numKeys, allIntegerKeys := false }
  else
    match intForString key.name with
    | some keyAsInt => { s with numKeys, maxKey := max s.maxKey keyAsInt }
    | none => { s with numKeys, allIntegerKeys := false }

namespace FNode

mutual

/-- `valForExport:`. -/
def valForExport : FNode LeafValue → (exp : Bool) → Payload
  | .empty, _ => .null
  | .leaf value priority, exp =>
    if exp && !priority.isEmpty then
      .dict [(valueKey, value.toPayload), (priorityKey, valForExport priority false)]
    else value.toPayload
  | .children entries priority, exp =>
    if entries.isEmpty then .null
    else
      let obj := valEntries entries exp
      let scan := (entries.map Prod.fst).foldl KeyScan.next
        { numKeys := 0, maxKey := 0, allIntegerKeys := true }
      if !exp && scan.allIntegerKeys && scan.maxKey < CInt.wrap (2 * scan.numKeys) then
        .array ((List.range (scan.maxKey + 1)).map fun i =>
          (obj.lookup (FSnapshotUtilities.indexKey i)).getD .null)
      else if exp && !priority.isEmpty then
        .dict (obj ++ [(priorityKey, valForExport priority false)])
      else .dict obj

/-- The exported children. -/
def valEntries : List (ChildKey × FNode LeafValue) → (exp : Bool) → List (ChildKey × Payload)
  | [], _ => []
  | (key, childNode) :: rest, exp => (key, valForExport childNode exp) :: valEntries rest exp

end

/-- `val`. -/
def val (n : FNode LeafValue) : Payload := n.valForExport false

end FNode

/-! ## Nodes that may be stored -/

/-- A string that is no longer than a leaf may be, or another scalar. -/
def Fits : Scalar → Prop
  | .string theString => theString.utf8ByteSize ≤ kFirebaseMaxLeafSize
  | _ => True

/-- A value a leaf may hold. -/
inductive StorableValue : LeafValue → Prop
  | null : StorableValue .null
  | scalar {s : Scalar} : Fits s → StorableValue (.scalar s)
  | serverValue (value : Payload) : StorableValue (.serverValue (.dict [(serverValueKey, value)]))

/-- A priority a node may have. -/
inductive StorablePriority : FNode LeafValue → Prop
  | empty : StorablePriority .empty
  | scalar {s : Scalar} : Fits s → (∀ b, s ≠ .bool b) →
      StorablePriority (.leaf (.scalar s) .empty)
  | serverValue (value : Payload) :
      StorablePriority (.leaf (.serverValue (.dict [(serverValueKey, value)])) .empty)

/-- A node that may be stored at a depth. -/
inductive Storable : ℕ → FNode LeafValue → Prop
  | empty {depth : ℕ} : depth ≤ kFirebaseMaxObjectDepth → Storable depth .empty
  | leaf {depth : ℕ} {value : LeafValue} {priority : FNode LeafValue} :
      depth ≤ kFirebaseMaxObjectDepth → StorableValue value → StorablePriority priority →
      Storable depth (.leaf value priority)
  | children {depth : ℕ} {entries : List (ChildKey × FNode LeafValue)}
      {priority : FNode LeafValue} :
      depth ≤ kFirebaseMaxObjectDepth → entries ≠ [] → SortedDict.Sorted keyComparator entries →
      (∀ e ∈ entries, isValidKey e.1.name = true) → (∀ e ∈ entries, e.2 ≠ .empty) →
      (∀ e ∈ entries, Storable (depth + 1) e.2) → StorablePriority priority →
      Storable depth (.children entries priority)

theorem StorablePriority.isPriority {p : FNode LeafValue} (hp : StorablePriority p) :
    p.IsPriority := by
  cases hp with
  | empty => exact .empty
  | scalar => exact .leaf _
  | serverValue => exact .leaf _

/-- A legal key starts with no dot. -/
theorem head?_ne_dot_of_isValidKey {s : String} (h : isValidKey s = true) :
    s.toList.head? ≠ some '.' := by
  intro hdot
  exact (isValidKey_iff.mp h).2 '.' (List.mem_of_mem_head? hdot) (by decide)

theorem ne_priorityKey_of_isValidKey {k : ChildKey} (h : isValidKey k.name = true) :
    k ≠ priorityKey := by
  rintro rfl
  exact absurd h (by decide)

/-- A node that may be stored is well formed. -/
theorem Storable.wellFormed {depth : ℕ} {n : FNode LeafValue} (h : Storable depth n) :
    n.WellFormed := by
  induction h with
  | empty => exact .empty
  | leaf _ _ hp => exact .leaf _ hp.isPriority
  | children _ hne hs hkey hce _ hp ih =>
    exact .children hne hs (fun e he => ne_priorityKey_of_isValidKey (hkey e he)) hce ih
      hp.isPriority

namespace FSnapshotUtilities

open FValidation

/-- A computation that goes on gives a result when both parts do. -/
theorem bind_eq_ok {β γ : Type} {x : Except NSException β} {f : β → Except NSException γ} {c : γ} :
    x >>= f = .ok c ↔ ∃ b, x = .ok b ∧ f b = .ok c := by
  cases x with
  | error e => exact ⟨nofun, fun ⟨_, h, _⟩ => nomatch h⟩
  | ok b => exact ⟨fun h => ⟨b, rfl, h⟩, fun ⟨_, hb, h⟩ => by cases hb; exact h⟩

variable {classDescription : Payload → String} {fn : String} {path : List String}

theorem checkDepth_eq_ok {depth : ℕ} :
    checkDepth fn depth path = .ok () ↔ depth ≤ kFirebaseMaxObjectDepth := by
  unfold checkDepth
  split
  · rename_i h
    exact ⟨nofun, fun h' => absurd h' (by omega)⟩
  · rename_i h
    exact ⟨fun _ => by omega, fun _ => rfl⟩

/-- The only key of a dictionary that has it and no other. -/
theorem eq_singleton_of_lookup {entries : List (ChildKey × Payload)} {k : ChildKey}
    (hsome : (entries.lookup k).isSome = true) (hlen : ¬entries.length > 1) :
    ∃ value, entries = [(k, value)] := by
  obtain ⟨value, hvalue⟩ := Option.isSome_iff_exists.mp hsome
  obtain ⟨front, back, rfl, -⟩ := List.lookup_eq_some_iff.mp hvalue
  refine ⟨value, ?_⟩
  cases front with
  | nil =>
    cases back with
    | nil => rfl
    | cons e es => simp at hlen
  | cons e es => simp at hlen

/-- A value is found to be a leaf when it may be held by one. -/
theorem storableValue_of_isValidLeafValue {value : Payload}
    (h : isValidLeafValue fn path value = .ok true) : StorableValue (.ofPayload value) := by
  cases value with
  | null => exact .null
  | scalar s =>
    refine .scalar ?_
    cases s with
    | string theString =>
      simp only [isValidLeafValue] at h
      split at h
      · cases h
      · rename_i hsize
        exact Nat.le_of_not_gt hsize
    | _ => trivial
  | array => cases h
  | dict dval =>
    -- a dictionary is a leaf when it holds a server value and nothing else
    simp only [isValidLeafValue] at h
    split at h
    · rename_i hsome
      split at h
      · cases h
      · rename_i hlen
        obtain ⟨value, rfl⟩ := eq_singleton_of_lookup hsome hlen
        exact .serverValue value
    · cases h

/-- A scalar is a leaf when it passes its check. -/
theorem isValidLeafValue_scalar {s : Scalar} {isLeaf : Bool}
    (h : isValidLeafValue fn path (.scalar s) = .ok isLeaf) :
    isValidLeafValue fn path (.scalar s) = .ok true := by
  cases s with
  | string theString =>
    simp only [isValidLeafValue] at h ⊢
    split at h
    · cases h
    · rename_i hsize
      rw [if_neg hsize]
      rfl
  | _ => rfl

/-- A key of a dictionary that holds no metadata is legal. -/
theorem isValidKey_of_validDictionaryKey {key : ChildKey}
    (h : validDictionaryKey fn path key = .ok ()) (hdot : key.name.toList.head? ≠ some '.') :
    isValidKey key.name = true := by
  unfold validDictionaryKey at h
  split at h
  · cases h
  · rename_i hcheck
    by_contra hbad
    refine hcheck ⟨?_, ?_, ?_, by simpa using hbad⟩
    all_goals
      rintro rfl
      exact hdot rfl

/-- A legal key of a dictionary passes its check. -/
theorem validDictionaryKey_of_isValidKey {key : ChildKey} (h : isValidKey key.name = true) :
    validDictionaryKey fn path key = .ok () := by
  simp [validDictionaryKey, h]
  rfl

variable (fn path) in
/-- A value that may be held by a leaf is found to be one. -/
theorem isValidLeafValue_toPayload {value : LeafValue} (h : StorableValue value) :
    isValidLeafValue fn path value.toPayload = .ok true ∧
      LeafValue.ofPayload value.toPayload = value := by
  cases h with
  | null => exact ⟨rfl, rfl⟩
  | @scalar s hs =>
    refine ⟨?_, rfl⟩
    cases s with
    | string theString =>
      have hsize : ¬theString.utf8ByteSize > kFirebaseMaxLeafSize := Nat.not_lt.mpr hs
      simp only [LeafValue.toPayload, isValidLeafValue, if_neg hsize]
      rfl
    | _ => rfl
  | serverValue value =>
    refine ⟨?_, rfl⟩
    simp [LeafValue.toPayload, isValidLeafValue]
    rfl

/-- A priority that passes its checks may be stored. -/
theorem storablePriority_of_eq_ok {value : Payload} {priority : FNode LeafValue}
    (hvalid : isValidPriorityValue fn path value = .ok ()) (h : priorityFrom value = .ok priority) :
    StorablePriority priority := by
  cases value with
  | null => cases h; exact .empty
  | scalar s =>
    obtain ⟨isLeaf, hleaf, h⟩ := bind_eq_ok.mp h
    cases h
    -- the checks of a leaf are made of a priority too
    have hfits : Fits s := by
      cases s with
      | string theString =>
        simp only [isValidLeafValue] at hleaf
        split at hleaf
        · cases hleaf
        · rename_i hsize
          exact Nat.le_of_not_gt hsize
      | _ => trivial
    refine .scalar hfits fun b hb => ?_
    subst hb
    cases hvalid
  | array => cases hvalid
  | dict dval =>
    obtain ⟨isLeaf, -, h⟩ := bind_eq_ok.mp h
    cases h
    simp only [isValidPriorityValue] at hvalid
    split at hvalid
    · rename_i hsome
      split at hvalid
      · cases hvalid
      · rename_i hlen
        obtain ⟨value, rfl⟩ := eq_singleton_of_lookup hsome hlen
        exact .serverValue value
    · cases hvalid

variable (fn path) in
/-- A priority that may be stored passes its checks. -/
theorem priorityFrom_valForExport {priority : FNode LeafValue} (h : StorablePriority priority) :
    isValidPriorityValue fn path (priority.valForExport false) = .ok () ∧
      priorityFrom (priority.valForExport false) = .ok priority := by
  cases h with
  | empty => exact ⟨rfl, rfl⟩
  | @scalar s hs hbool =>
    have hvalid := (isValidLeafValue_toPayload "nodeFrom:priority:" []
      (.scalar hs)).1
    refine ⟨?_, ?_⟩
    · cases s with
      | bool b => exact absurd rfl (hbool b)
      | _ => rfl
    · exact bind_eq_ok.mpr ⟨true, hvalid, rfl⟩
  | serverValue value =>
    have hvalid := (isValidLeafValue_toPayload "nodeFrom:priority:" []
      (.serverValue value)).1
    refine ⟨?_, bind_eq_ok.mpr ⟨true, hvalid, rfl⟩⟩
    simp [FNode.valForExport, LeafValue.toPayload, isValidPriorityValue]
    rfl

/-! ## What is accepted -/

/-- A node with children that may be stored may be stored. -/
theorem storable_childrenNode {depth : ℕ} (hdepth : depth ≤ kFirebaseMaxObjectDepth)
    {children : List (ChildKey × FNode LeafValue)} {priority : FNode LeafValue}
    (hpriority : StorablePriority priority)
    (hchildren : ∀ e ∈ children, isValidKey e.1.name = true ∧ e.2 ≠ .empty ∧
      Storable (depth + 1) e.2) : Storable depth (childrenNode children priority) := by
  unfold childrenNode
  cases children with
  | nil => exact .empty hdepth
  | cons c children =>
    have hall : ∀ e ∈ SortedDict.insertAll keyComparator (c :: children) [], e ∈ c :: children :=
      fun e he => (SortedDict.mem_insertAll he).resolve_right (by simp)
    exact .children hdepth (SortedDict.insertAll_ne_nil children (SortedDict.insert_ne_nil _ _ _))
      (SortedDict.sorted_nil.insertAll _)
      (fun e he => (hchildren e (hall e he)).1) (fun e he => (hchildren e (hall e he)).2.1)
      (fun e he => (hchildren e (hall e he)).2.2) hpriority

/-- The decimal of an index is a legal key. -/
theorem isValidKey_indexKey (i : ℕ) : isValidKey (indexKey i).name = true := by
  refine isValidKey_iff.mpr ⟨by simp [indexKey, Nat.toString_eq_repr], fun c hc hbad => ?_⟩
  have hdigit : c.isDigit = true := List.all_eq_true.mp (all_isDigit_toString i) c hc
  simp only [invalidKeyCharacters, List.mem_cons, List.not_mem_nil, or_false] at hbad
  rcases hbad with rfl | rfl | rfl | rfl | rfl | rfl
  all_goals exact absurd hdigit (by decide)

/-- The children of an accepted dictionary are nodes of its values, under legal keys. -/
theorem entriesFrom_eq_ok {entries : List (ChildKey × Payload)} {depth : ℕ}
    {children : List (ChildKey × FNode LeafValue)}
    (h : entriesFrom classDescription fn entries depth path = .ok children) :
    ∀ e ∈ children, isValidKey e.1.name = true ∧ e.2.isEmpty = false ∧
      ∃ entry ∈ entries, ∃ path',
        nodeFrom classDescription fn entry.2 .null (depth + 1) path' = .ok e.2 := by
  induction entries generalizing children with
  | nil => cases h; simp
  | cons entry rest ih =>
    obtain ⟨key, value⟩ := entry
    rw [entriesFrom] at h
    obtain ⟨⟨⟩, hvalid, h⟩ := bind_eq_ok.mp h
    -- a key of the metadata is passed over
    by_cases hdot : key.name.toList.head? = some '.'
    · rw [if_pos hdot] at h
      intro e he
      obtain ⟨hkey, hne, entry, hmem, hnode⟩ := ih h e he
      exact ⟨hkey, hne, entry, List.mem_cons_of_mem _ hmem, hnode⟩
    · rw [if_neg hdot] at h
      obtain ⟨childNode, hchild, h⟩ := bind_eq_ok.mp h
      obtain ⟨others, hothers, h⟩ := bind_eq_ok.mp h
      have hrest : ∀ e ∈ others, isValidKey e.1.name = true ∧ e.2.isEmpty = false ∧
          ∃ entry ∈ (key, value) :: rest, ∃ path',
            nodeFrom classDescription fn entry.2 .null (depth + 1) path' = .ok e.2 := by
        intro e he
        obtain ⟨hkey, hne, entry, hmem, hnode⟩ := ih hothers e he
        exact ⟨hkey, hne, entry, List.mem_cons_of_mem _ hmem, hnode⟩
      -- a child that is empty is left out
      cases hempty : childNode.isEmpty with
      | true =>
        rw [hempty] at h
        cases h
        exact hrest
      | false =>
        rw [hempty] at h
        cases h
        rintro e he
        rcases List.mem_cons.mp he with rfl | he
        · exact ⟨isValidKey_of_validDictionaryKey hvalid hdot, hempty, _, List.mem_cons_self, _,
            hchild⟩
        · exact hrest e he

/-- An array is taken as the dictionary of its elements under their indices. -/
theorem elementsFrom_eq (elements : List Payload) (i depth : ℕ) (path : List String) :
    elementsFrom classDescription fn elements i depth path =
      entriesFrom classDescription fn ((elements.zipIdx i).map fun e => (indexKey e.2, e.1)) depth
        path := by
  induction elements generalizing i with
  | nil => rfl
  | cons element rest ih =>
    rw [List.zipIdx_cons, List.map_cons, elementsFrom, entriesFrom, ← ih (i + 1),
      validDictionaryKey_of_isValidKey (isValidKey_indexKey i),
      if_neg (head?_ne_dot_of_isValidKey (isValidKey_indexKey i))]
    rfl

/-- A dictionary with no server value is no leaf. -/
theorem isValidLeafValue_dict {entries : List (ChildKey × Payload)}
    (h : entries.lookup serverValueKey = none) :
    isValidLeafValue fn path (.dict entries) = .ok false := by
  simp [isValidLeafValue, h]
  rfl

/-- An accepted scalar is made a leaf. -/
theorem nodeFrom_scalar_eq_ok {s : Scalar} {aPriority : Payload} {depth : ℕ} {n : FNode LeafValue}
    (h : nodeFrom classDescription fn (.scalar s) aPriority depth path = .ok n) :
    depth ≤ kFirebaseMaxObjectDepth ∧ StorableValue (.scalar s) ∧
      ∃ priority, StorablePriority priority ∧ n = .leaf (.scalar s) priority := by
  rw [nodeFrom] at h
  obtain ⟨⟨⟩, hdepth, h⟩ := bind_eq_ok.mp h
  obtain ⟨⟨⟩, hvalid, h⟩ := bind_eq_ok.mp h
  obtain ⟨priority, hpriority, h⟩ := bind_eq_ok.mp h
  obtain ⟨isLeaf, hleaf, h⟩ := bind_eq_ok.mp h
  cases h
  exact ⟨checkDepth_eq_ok.mp hdepth,
    storableValue_of_isValidLeafValue (isValidLeafValue_scalar hleaf), priority,
    storablePriority_of_eq_ok hvalid hpriority, rfl⟩

/-- An accepted array is made the node of its elements under their indices. -/
theorem nodeFrom_array_eq_ok {elements : List Payload} {aPriority : Payload} {depth : ℕ}
    {n : FNode LeafValue}
    (h : nodeFrom classDescription fn (.array elements) aPriority depth path = .ok n) :
    depth ≤ kFirebaseMaxObjectDepth ∧ ∃ priority children, StorablePriority priority ∧
      entriesFrom classDescription fn (elements.zipIdx.map fun e => (indexKey e.2, e.1)) depth
          path = .ok children ∧
        n = childrenNode children priority := by
  rw [nodeFrom] at h
  obtain ⟨⟨⟩, hdepth, h⟩ := bind_eq_ok.mp h
  obtain ⟨⟨⟩, hvalid, h⟩ := bind_eq_ok.mp h
  obtain ⟨priority, hpriority, h⟩ := bind_eq_ok.mp h
  obtain ⟨children, hchildren, h⟩ := bind_eq_ok.mp h
  cases h
  rw [elementsFrom_eq] at hchildren
  exact ⟨checkDepth_eq_ok.mp hdepth, priority, children,
    storablePriority_of_eq_ok hvalid hpriority, hchildren, rfl⟩

/-- The priority of an accepted dictionary is the one it holds, or else the one that was given. -/
theorem storablePriority_of_dictionaryPriority {given priority : FNode LeafValue}
    {rawPriority : Option Payload} (hgiven : StorablePriority given)
    (h : dictionaryPriority fn path given rawPriority = .ok priority) :
    StorablePriority priority := by
  cases rawPriority with
  | none =>
    cases h
    exact hgiven
  | some value =>
    obtain ⟨⟨⟩, hvalid, h⟩ := bind_eq_ok.mp h
    exact storablePriority_of_eq_ok hvalid h

/-- An accepted dictionary is made a leaf, if it has metadata for one, or the node of its
entries. -/
theorem nodeFrom_dict_eq_ok {entries : List (ChildKey × Payload)} {aPriority : Payload} {depth : ℕ}
    {n : FNode LeafValue}
    (h : nodeFrom classDescription fn (.dict entries) aPriority depth path = .ok n) :
    depth ≤ kFirebaseMaxObjectDepth ∧ ∃ priority, StorablePriority priority ∧
      ((entries.lookup valueKey ≠ none ∨ entries.lookup serverValueKey ≠ none) ∧
          (∃ value, StorableValue value ∧ n = .leaf value priority) ∨
        ∃ children, entriesFrom classDescription fn entries depth path = .ok children ∧
          n = childrenNode children priority) := by
  rw [nodeFrom] at h
  obtain ⟨⟨⟩, hdepth, h⟩ := bind_eq_ok.mp h
  obtain ⟨⟨⟩, hvalid, h⟩ := bind_eq_ok.mp h
  obtain ⟨given, hgiven, h⟩ := bind_eq_ok.mp h
  obtain ⟨priority, hpriority, h⟩ := bind_eq_ok.mp h
  refine ⟨checkDepth_eq_ok.mp hdepth, priority, storablePriority_of_dictionaryPriority
    (storablePriority_of_eq_ok hvalid hgiven) hpriority, ?_⟩
  -- a value among the metadata makes a leaf, and so does a server value
  cases hvalue : entries.lookup valueKey with
  | some value =>
    rw [hvalue] at h
    obtain ⟨isLeaf, hleaf, h⟩ := bind_eq_ok.mp h
    cases isLeaf with
    | false => cases h
    | true =>
      cases h
      exact .inl ⟨.inl nofun, _, storableValue_of_isValidLeafValue hleaf, rfl⟩
  | none =>
    rw [hvalue] at h
    obtain ⟨isLeaf, hleaf, h⟩ := bind_eq_ok.mp h
    cases isLeaf with
    | true =>
      cases h
      refine .inl ⟨.inr fun hserver => ?_, _, storableValue_of_isValidLeafValue hleaf, rfl⟩
      rw [isValidLeafValue_dict hserver] at hleaf
      cases hleaf
    | false =>
      obtain ⟨children, hchildren, h⟩ := bind_eq_ok.mp h
      cases h
      exact .inr ⟨children, hchildren, rfl⟩

variable (classDescription fn) in
/-- What is accepted may be stored. -/
theorem nodeFrom_storable (value : Payload) {aPriority : Payload} {depth : ℕ} {path : List String}
    {n : FNode LeafValue}
    (h : nodeFrom classDescription fn value aPriority depth path = .ok n) : Storable depth n := by
  induction value using Payload.induction generalizing aPriority depth path n with
  | null =>
    rw [nodeFrom] at h
    obtain ⟨⟨⟩, hdepth, h⟩ := bind_eq_ok.mp h
    cases h
    exact .empty (checkDepth_eq_ok.mp hdepth)
  | scalar s =>
    obtain ⟨hdepth, hvalue, priority, hpriority, rfl⟩ := nodeFrom_scalar_eq_ok h
    exact .leaf hdepth hvalue hpriority
  | array elements ih =>
    obtain ⟨hdepth, priority, children, hpriority, hchildren, rfl⟩ := nodeFrom_array_eq_ok h
    refine storable_childrenNode hdepth hpriority fun e he => ?_
    obtain ⟨hkey, hne, entry, hmem, path', hnode⟩ := entriesFrom_eq_ok hchildren e he
    obtain ⟨element, helement, rfl⟩ := List.mem_map.mp hmem
    exact ⟨hkey, fun hempty => by simp [hempty] at hne,
      ih element.1 (List.fst_mem_of_mem_zipIdx helement) hnode⟩
  | dict entries ih =>
    obtain ⟨hdepth, priority, hpriority, ⟨-, value, hvalue, rfl⟩ | ⟨children, hchildren, rfl⟩⟩ :=
      nodeFrom_dict_eq_ok h
    · exact .leaf hdepth hvalue hpriority
    · refine storable_childrenNode hdepth hpriority fun e he => ?_
      obtain ⟨hkey, hne, entry, hmem, path', hnode⟩ := entriesFrom_eq_ok hchildren e he
      exact ⟨hkey, fun hempty => by simp [hempty] at hne, ih entry hmem hnode⟩

/-! ## Export and import -/

/-- The exported children have the keys of the children. -/
theorem lookup_valEntries {entries : List (ChildKey × FNode LeafValue)} {k : ChildKey}
    (hk : ∀ e ∈ entries, k ≠ e.1) (exp : Bool) :
    (FNode.valEntries entries exp).lookup k = none := by
  induction entries with
  | nil => rfl
  | cons e entries ih =>
    obtain ⟨key, childNode⟩ := e
    have hbeq : (k == key) = false := by simpa using hk _ List.mem_cons_self
    rw [FNode.valEntries, List.lookup_cons, hbeq]
    exact ih fun e he => hk e (List.mem_cons_of_mem _ he)

variable (path) in
/-- The exported children are made nodes again, when each of them is. -/
theorem entriesFrom_valEntries {entries : List (ChildKey × FNode LeafValue)} {depth : ℕ}
    (metadata : List (ChildKey × Payload))
    (hkey : ∀ e ∈ entries, isValidKey e.1.name = true) (hne : ∀ e ∈ entries, e.2.isEmpty = false)
    (hnode : ∀ e ∈ entries, ∀ path, nodeFrom classDescription fn (e.2.valForExport true) .null
      (depth + 1) path = .ok e.2)
    (hmetadata : entriesFrom classDescription fn metadata depth path = .ok []) :
    entriesFrom classDescription fn (FNode.valEntries entries true ++ metadata) depth path =
      .ok entries := by
  induction entries with
  | nil => exact hmetadata
  | cons e entries ih =>
    obtain ⟨key, childNode⟩ := e
    have hvalid : isValidKey key.name = true := hkey _ List.mem_cons_self
    have hothers := ih (fun e he => hkey e (List.mem_cons_of_mem _ he))
      (fun e he => hne e (List.mem_cons_of_mem _ he))
      (fun e he => hnode e (List.mem_cons_of_mem _ he))
    have hempty : childNode.isEmpty = false := hne _ List.mem_cons_self
    rw [FNode.valEntries, List.cons_append, entriesFrom]
    refine bind_eq_ok.mpr ⟨(), validDictionaryKey_of_isValidKey hvalid, ?_⟩
    rw [if_neg (head?_ne_dot_of_isValidKey hvalid)]
    refine bind_eq_ok.mpr ⟨childNode, hnode _ List.mem_cons_self _, ?_⟩
    refine bind_eq_ok.mpr ⟨entries, hothers, ?_⟩
    simp [hempty]
    rfl

/-- A node with sorted children is made of them. -/
theorem childrenNode_of_sorted {entries : List (ChildKey × FNode LeafValue)} (hne : entries ≠ [])
    (hs : SortedDict.Sorted keyComparator entries) (priority : FNode LeafValue) :
    childrenNode entries priority = .children entries priority := by
  have hempty : entries.isEmpty = false := by simpa using hne
  rw [childrenNode, hempty, SortedDict.insertAll_eq_append (l := []) hs]
  rfl

/-- The leaves of a child are those below its key. -/
theorem leaves_of_mem {entries : List (ChildKey × FNode LeafValue)} {priority : FNode LeafValue}
    (hn : (FNode.children entries priority).WellFormed) {e : ChildKey × FNode LeafValue}
    (he : e ∈ entries) (q : List ChildKey) :
    (FNode.children entries priority).leaves (e.1 :: q) = e.2.leaves q ∧
      (FNode.children entries priority).priorities (e.1 :: q) = e.2.priorities q := by
  have hsorted : SortedDict.Sorted keyComparator entries := by
    cases hn with
    | children _ hs => exact hs
  obtain ⟨hk, -, hchild⟩ := hn.get_eq_some_iff.mp (SortedDict.get_of_mem hsorted he)
  have hnotMem : priorityKey ∉ [e.1] := by simpa using Ne.symm hk
  have hget : (FNode.children entries priority).getChild [e.1] = e.2 := by
    rw [FNode.getChild_cons hk, FNode.getChild_nil, hchild]
  refine ⟨?_, ?_⟩
  · rw [← hget, ← FNode.leaves_append hnotMem, List.singleton_append]
  · rw [← hget, ← FNode.priorities_append hnotMem, List.singleton_append]

/-- A leaf with a value and a priority is made of its export. -/
theorem nodeFrom_valForExport_leaf {depth : ℕ} {value : LeafValue} {priority : FNode LeafValue}
    (hdepth : depth ≤ kFirebaseMaxObjectDepth) (hvalue : StorableValue value)
    (hpriority : StorablePriority priority) (hnull : value = .null → priority ≠ .empty) :
    nodeFrom classDescription fn ((FNode.leaf value priority).valForExport true) .null depth path =
      .ok (.leaf value priority) := by
  have hnone : priorityFrom .null = .ok (.empty : FNode LeafValue) := rfl
  have hcheck : checkDepth fn depth path = .ok () := checkDepth_eq_ok.mpr hdepth
  obtain ⟨hvalid, hof⟩ := isValidLeafValue_toPayload fn path hvalue
  cases hempty : priority.isEmpty with
  | true =>
    obtain rfl : priority = .empty :=
      (hpriority.isPriority.wellFormed.isEmpty_iff).mp hempty
    have hexport : (FNode.leaf value .empty).valForExport true = value.toPayload := by
      simp [FNode.valForExport]
    rw [hexport]
    cases hvalue with
    | null => exact absurd rfl (hnull rfl)
    | scalar hs =>
      exact bind_eq_ok.mpr ⟨(), hcheck, bind_eq_ok.mpr ⟨(), rfl,
        bind_eq_ok.mpr ⟨.empty, hnone, bind_eq_ok.mpr ⟨true, hvalid, rfl⟩⟩⟩⟩
    | serverValue value =>
      refine bind_eq_ok.mpr ⟨(), hcheck, bind_eq_ok.mpr ⟨(), rfl,
        bind_eq_ok.mpr ⟨.empty, hnone, bind_eq_ok.mpr ⟨.empty, rfl, ?_⟩⟩⟩⟩
      exact bind_eq_ok.mpr ⟨true, hvalid, rfl⟩
  | false =>
    have hexport : (FNode.leaf value priority).valForExport true =
        .dict [(valueKey, value.toPayload), (priorityKey, priority.valForExport false)] := by
      simp [FNode.valForExport, hempty]
    obtain ⟨hvalid', hfrom⟩ := priorityFrom_valForExport fn path hpriority
    rw [hexport]
    refine bind_eq_ok.mpr ⟨(), hcheck, bind_eq_ok.mpr ⟨(), rfl, bind_eq_ok.mpr ⟨.empty, hnone,
      bind_eq_ok.mpr ⟨priority, bind_eq_ok.mpr ⟨(), hvalid', hfrom⟩, ?_⟩⟩⟩⟩
    refine bind_eq_ok.mpr ⟨true, hvalid, ?_⟩
    rw [hof]
    rfl

variable (classDescription fn) in
/-- A node that may be stored is made again of its export, unless it has a leaf with neither a
value nor a priority. -/
theorem nodeFrom_valForExport {depth : ℕ} {n : FNode LeafValue} (h : Storable depth n)
    (hnull : ∀ q, n.leaves q = some .null → n.priorities q ≠ none) (path : List String) :
    nodeFrom classDescription fn (n.valForExport true) .null depth path = .ok n := by
  have hnone : priorityFrom .null = .ok (.empty : FNode LeafValue) := rfl
  induction h generalizing path with
  | empty hdepth => exact bind_eq_ok.mpr ⟨(), checkDepth_eq_ok.mpr hdepth, rfl⟩
  | leaf hdepth hvalue hpriority =>
    refine nodeFrom_valForExport_leaf hdepth hvalue hpriority ?_
    rintro rfl rfl
    exact hnull [] (by simp [FNode.leaves_nil, FNode.leafValue])
      (by simp [FNode.priorities_nil, FNode.getPriority, FNode.leafValue])
  | @children depth entries priority hdepth hne hs hkey hce hstorable hpriority ih =>
    have hwf : (FNode.children entries priority).WellFormed :=
      (Storable.children hdepth hne hs hkey hce hstorable hpriority).wellFormed
    have hnode : ∀ e ∈ entries, ∀ path, nodeFrom classDescription fn (e.2.valForExport true) .null
        (depth + 1) path = .ok e.2 := by
      intro e he path
      refine ih e he (fun q hq => ?_) path
      rw [← (leaves_of_mem hwf he q).2]
      exact hnull (e.1 :: q) ((leaves_of_mem hwf he q).1.trans hq)
    have hcheck : checkDepth fn depth path = .ok () := checkDepth_eq_ok.mpr hdepth
    have hisEmpty : ∀ e ∈ entries, e.2.isEmpty = false :=
      fun e he => (hstorable e he).wellFormed.isEmpty_eq_false (hce e he)
    -- the keys of a node are legal, so none of its children is taken for metadata
    have hlookup : ∀ {k : ChildKey}, isValidKey k.name = false →
        (FNode.valEntries entries true).lookup k = none := by
      intro k hk
      refine lookup_valEntries (fun e he => ?_) true
      rintro rfl
      simp [hkey e he] at hk
    have hpriorityKey := hlookup (k := priorityKey) (by decide)
    have hvalueKey := hlookup (k := valueKey) (by decide)
    have hserverKey := hlookup (k := serverValueKey) (by decide)
    have hentries : entries.isEmpty = false := by simpa using hne
    -- the export holds the priority under its key only when there is one
    cases hempty : priority.isEmpty with
    | true =>
      obtain rfl : priority = .empty := (hpriority.isPriority.wellFormed.isEmpty_iff).mp hempty
      have hexport : (FNode.children entries .empty).valForExport true =
          .dict (FNode.valEntries entries true) := by
        simp [FNode.valForExport, hentries]
      have hchildren := entriesFrom_valEntries path [] hkey hisEmpty hnode rfl
      rw [List.append_nil] at hchildren
      rw [hexport, nodeFrom]
      refine bind_eq_ok.mpr ⟨(), hcheck, bind_eq_ok.mpr ⟨(), rfl, bind_eq_ok.mpr ⟨.empty, hnone,
        bind_eq_ok.mpr ⟨.empty, by rw [hpriorityKey]; rfl, ?_⟩⟩⟩⟩
      rw [hvalueKey]
      refine bind_eq_ok.mpr ⟨false, isValidLeafValue_dict hserverKey, ?_⟩
      refine bind_eq_ok.mpr ⟨entries, hchildren, ?_⟩
      rw [childrenNode_of_sorted hne hs]
      rfl
    | false =>
      have hexport : (FNode.children entries priority).valForExport true =
          .dict (FNode.valEntries entries true ++
            [(priorityKey, priority.valForExport false)]) := by
        simp [FNode.valForExport, hentries, hempty]
      obtain ⟨hvalid, hfrom⟩ := priorityFrom_valForExport fn path hpriority
      have hchildren := entriesFrom_valEntries path
        [(priorityKey, priority.valForExport false)] hkey hisEmpty hnode rfl
      rw [hexport, nodeFrom]
      refine bind_eq_ok.mpr ⟨(), hcheck, bind_eq_ok.mpr ⟨(), rfl, bind_eq_ok.mpr ⟨.empty, hnone,
        bind_eq_ok.mpr ⟨priority, ?_, ?_⟩⟩⟩⟩
      · rw [List.lookup_append, hpriorityKey]
        exact bind_eq_ok.mpr ⟨(), hvalid, hfrom⟩
      · rw [List.lookup_append, hvalueKey]
        refine bind_eq_ok.mpr ⟨false, isValidLeafValue_dict ?_, ?_⟩
        · rw [List.lookup_append, hserverKey]
          rfl
        refine bind_eq_ok.mpr ⟨entries, hchildren, ?_⟩
        rw [childrenNode_of_sorted hne hs]
        rfl

variable (classDescription fn) in
/-- Whatever is accepted may be stored at its depth, and is accepted again after it has been
exported: the node that is made of the export is the one that was exported, unless a leaf has
neither a value nor a priority. -/
theorem nodeFrom_export {value aPriority : Payload} {depth : ℕ} {path : List String}
    {n : FNode LeafValue}
    (h : nodeFrom classDescription fn value aPriority depth path = .ok n) :
    Storable depth n ∧ ((∀ q, n.leaves q = some .null → n.priorities q ≠ none) →
      ∀ path', nodeFrom classDescription fn (n.valForExport true) .null depth path' = .ok n) :=
  have hstorable := nodeFrom_storable classDescription fn value h
  ⟨hstorable, fun hnull => nodeFrom_valForExport classDescription fn hstorable hnull⟩

/-- A server value with a priority is accepted again. -/
theorem nodeFrom_export_serverValue :
    nodeFrom (fun _ => "") "setValue:"
        (.dict [(valueKey, .dict [(serverValueKey, .scalar (.string "timestamp"))]),
          (priorityKey, .scalar (.int 2))]) .null 0 [] =
      .ok (.leaf (.serverValue (.dict [(serverValueKey, .scalar (.string "timestamp"))]))
        (.leaf (.scalar (.int 2)) .empty)) := by
  have h : nodeFrom (fun _ => "") "setValue:"
      (.dict [(serverValueKey, .scalar (.string "timestamp"))]) (.scalar (.int 2)) 0 [] =
        .ok (.leaf (.serverValue (.dict [(serverValueKey, .scalar (.string "timestamp"))]))
          (.leaf (.scalar (.int 2)) .empty)) := rfl
  refine (nodeFrom_export (fun _ => "") "setValue:" h).2 (fun q hq => ?_) []
  cases q with
  | nil => simp [FNode.leaves_nil, FNode.leafValue] at hq
  | cons k q =>
    by_cases hk : k = priorityKey
    · simp [FNode.leaves, hk] at hq
    · simp [FNode.leaves, FNode.getChild, hk, FNode.leafValue] at hq

end FSnapshotUtilities

end LearnCode.FirebaseDatabase
