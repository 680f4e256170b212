import LearnCode.Firebase.Value
import LearnCode.Library.PathStore

/-!
# Database paths and writes

The checks the database client makes on paths, how it reads a path, and what a successful
write does to the tree.

## Main definitions

* `child`: `child(_:)`, which raises an exception on an invalid path string;
* `Key`: a string that is legal as one key;
* `pieces`: the components of a path string;
* `updateOps`: the effect of `updateChildValues`;
* `Snapshot`: what a read of a node gives.
-/

namespace LearnCode

open PathStore

/-- A node of the database, from the root. -/
abbrev Path : Type := List String

/-- The database, as the leaf at the end of each path. -/
abbrev Database : Type := Store String Scalar

/-- `kInvalidPathCharacters`. -/
def invalidPathCharacters : List Char := ['[', ']', '.', '#', '$']

/-- `kInvalidKeyCharacters`. -/
def invalidKeyCharacters : List Char := ['[', ']', '.', '#', '$', '/']

/-- `isValidPathString:`. -/
def isValidPathString (s : String) : Bool :=
  s.toList ≠ [] && s.toList.all (fun c => c ∉ invalidPathCharacters)

/-- `isValidKey:`. -/
def isValidKey (s : String) : Bool :=
  s.toList ≠ [] && s.toList.all (fun c => c ∉ invalidKeyCharacters)

/-- The components of a path string: what stands between slashes and is not empty. -/
def pieces (s : String) : Path := ((s.toList.splitOn '/').filter (· ≠ [])).map String.ofList

/-- `child(_:)`; `none` is the exception that an invalid path string raises. -/
def child (path : Path) (pathString : String) : Option Path :=
  if isValidPathString pathString then some (path ++ pieces pathString) else none

/-- A string that is legal as a database key: a user id, or the id of a message. -/
structure Key where
  /-- The key itself. -/
  id : String
  /-- It is not empty and has none of the excluded characters. -/
  isValid : isValidKey id = true
deriving DecidableEq

/-- The writes of `updateChildValues` at a node: each value replaces what is at its path. -/
def updateOps (path : Path) (values : List (String × Value)) : List (Op String Scalar) :=
  values.map fun e => .write (path ++ pieces e.1) (fun q => e.2.leaf q)

/-- What a read of a node gives: its content as nested dictionaries and arrays. -/
structure Snapshot (db : Database) (path : Path) where
  /-- `snapshot.value`. -/
  value : Value
  /-- The keys on each level are distinct. -/
  nested : value.Nested
  /-- The leaves are those of the database below the node. -/
  leaf_eq : ∀ q, value.leaf q = db (path ++ q)

/-! ## Legal keys -/

theorem isValidKey_iff {s : String} :
    isValidKey s = true ↔ s.toList ≠ [] ∧ ∀ c ∈ s.toList, c ∉ invalidKeyCharacters := by
  simp [isValidKey]

theorem isValidPathString_iff {s : String} :
    isValidPathString s = true ↔
      s.toList ≠ [] ∧ ∀ c ∈ s.toList, c ∉ invalidPathCharacters := by
  simp [isValidPathString]

/-- A legal key is a legal path string. -/
theorem isValidPathString_of_isValidKey {s : String} (h : isValidKey s = true) :
    isValidPathString s = true := by
  obtain ⟨hne, hall⟩ := isValidKey_iff.mp h
  refine isValidPathString_iff.mpr ⟨hne, fun c hc hbad => hall c hc ?_⟩
  simp only [invalidPathCharacters, invalidKeyCharacters, List.mem_cons] at hbad ⊢
  tauto

/-- A legal key holds no slash. -/
theorem slash_notMem_of_isValidKey {s : String} (h : isValidKey s = true) :
    '/' ∉ s.toList := by
  intro hmem
  exact (isValidKey_iff.mp h).2 '/' hmem (by decide)

/-- A legal key is one component. -/
theorem pieces_of_isValidKey {s : String} (h : isValidKey s = true) : pieces s = [s] := by
  rw [pieces, List.splitOn_eq_singleton (slash_notMem_of_isValidKey h)]
  simp [(isValidKey_iff.mp h).1]

/-- `child(_:)` of a legal key goes down one level. -/
theorem child_of_isValidKey {s : String} (h : isValidKey s = true) (path : Path) :
    child path s = some (path ++ [s]) := by
  rw [child, if_pos (isValidPathString_of_isValidKey h), pieces_of_isValidKey h]

/-- A slash before a path string adds no component. -/
theorem pieces_slash_append (s : String) : pieces ("/" ++ s) = pieces s := by
  have h : ("/" ++ s).toList = [] ++ '/' :: s.toList := by simp
  rw [pieces, h, List.splitOn_append_cons_self_of_not_mem (by simp)]
  simp [pieces]

/-- A legal key before a slash is the first component. -/
theorem pieces_key_slash {k : String} (h : isValidKey k = true) (s : String) :
    pieces (k ++ "/" ++ s) = k :: pieces s := by
  have hlist : (k ++ "/" ++ s).toList = k.toList ++ '/' :: s.toList := by simp
  rw [pieces, hlist,
    List.splitOn_append_cons_self_of_not_mem (slash_notMem_of_isValidKey h)]
  simp [pieces, (isValidKey_iff.mp h).1]

end LearnCode
