import LearnCode.Firebase.Database
import Mathlib.Data.List.Infix
import Mathlib.Data.List.Sort

/-!
# Paths

`FPath`: the components of a path, of which those before an index have been taken off. What a path
stands for is the list of the components from that index on, and every operation is one on this
list.

## Main definitions

* `FPath κ`: the components and the index;
* `components`: what a path stands for;
* `contains`, `relativePathFrom`, `child`, `parent`, `compare`: the operations;
* `toStringWithTrailingSlash`, `wireFormat`: how a path is written.

## Main results

* `components_popFront`, `components_child`, `components_parent`, `contains_iff`,
  `relativePathFrom_eq`, `compare_eq`: the operations on the lists of components;
* `components_initWith_iff`: which paths are read again from what was written.
-/

namespace LearnCode.FirebaseDatabase

/-- `FPath`, with its components in `κ`. -/
structure FPath (κ : Type) where
  /-- `pieces`. -/
  pieces : List κ
  /-- `pieceNum`: how many of the pieces have been taken off. -/
  pieceNum : ℕ
  /-- No more pieces are taken off than there are. -/
  pieceNum_le : pieceNum ≤ pieces.length

namespace FPath

variable {κ : Type}

/-- The components that have not been taken off. -/
def components (path : FPath κ) : List κ := path.pieces.drop path.pieceNum

/-- `initWithPieces:andPieceNum:`. -/
def ofPieces (pieces : List κ) : FPath κ :=
  { pieces, pieceNum := 0, pieceNum_le := Nat.zero_le _ }

/-- `getFront`. -/
def getFront (path : FPath κ) : Option κ :=
  if path.pieceNum ≥ path.pieces.length then none else path.pieces[path.pieceNum]?

/-- `length`. -/
def length (path : FPath κ) : ℕ := path.pieces.length - path.pieceNum

/-- `popFront`. -/
def popFront (path : FPath κ) : FPath κ :=
  if h : path.pieceNum < path.pieces.length then
    { path with pieceNum := path.pieceNum + 1, pieceNum_le := h }
  else path

/-- `getBack`. -/
def getBack (path : FPath κ) : Option κ :=
  if path.pieceNum < path.pieces.length then path.pieces.getLast? else none

/-- `isEmpty`. -/
def isEmpty (path : FPath κ) : Bool := path.pieceNum ≥ path.pieces.length

/-- `parent`. -/
def parent (path : FPath κ) : Option (FPath κ) :=
  if path.pieceNum ≥ path.pieces.length then none
  else some (ofPieces ((path.pieces.take (path.pieces.length - 1)).drop path.pieceNum))

/-- `child:`. -/
def child (path childPathObj : FPath κ) : FPath κ :=
  ofPieces (path.pieces.drop path.pieceNum ++ childPathObj.pieces.drop childPathObj.pieceNum)

/-- `relativePathFrom:to:`; `none` is the exception that the inner path is not within the outer
one. -/
def relativePathFrom [DecidableEq κ] (outer inner : FPath κ) : Option (FPath κ) :=
  if _h : outer.pieceNum < outer.pieces.length then
    if inner.getFront = outer.getFront then relativePathFrom outer.popFront inner.popFront
    else none
  else some inner
termination_by outer.length
decreasing_by
  simp only [length, popFront, dif_pos _h]
  omega

/-- The loop of `contains:`, from the indices `i` and `j` on. -/
def containsLoop [DecidableEq κ] (pieces other : List κ) (i j : ℕ) : Bool :=
  if _h : i < pieces.length then
    if pieces[i]? = other[j]? then containsLoop pieces other (i + 1) (j + 1) else false
  else true
termination_by pieces.length - i

/-- `contains:`. -/
def contains [DecidableEq κ] (path other : FPath κ) : Bool :=
  if path.length > other.length then false
  else containsLoop path.pieces other.pieces path.pieceNum other.pieceNum

/-- The loop of `compare:`, from the indices `i` and `j` on; `eq` when one of the paths has
ended. -/
def compareLoop (cmp : κ → κ → Ordering) (pieces other : List κ) (i j : ℕ) : Ordering :=
  if h : i < pieces.length ∧ j < other.length then
    match cmp (pieces.get ⟨i, h.1⟩) (other.get ⟨j, h.2⟩) with
    | .eq => compareLoop cmp pieces other (i + 1) (j + 1)
    | comparison => comparison
  else .eq
termination_by pieces.length - i

/-- `compare:`. -/
def compare (cmp : κ → κ → Ordering) (path other : FPath κ) : Ordering :=
  match compareLoop cmp path.pieces other.pieces path.pieceNum other.pieceNum with
  | .eq => Ord.compare path.length other.length
  | comparison => comparison

/-! ## Components -/

@[simp] theorem components_ofPieces (pieces : List κ) : (ofPieces pieces).components = pieces :=
  rfl

/-- The components of a path that has not ended. -/
theorem components_of_lt {path : FPath κ} (h : path.pieceNum < path.pieces.length) :
    path.components = path.pieces.get ⟨path.pieceNum, h⟩ :: path.pieces.drop (path.pieceNum + 1) :=
  List.drop_eq_getElem_cons h

theorem components_of_le {path : FPath κ} (h : path.pieces.length ≤ path.pieceNum) :
    path.components = [] :=
  List.drop_eq_nil_of_le h

theorem length_eq (path : FPath κ) : path.length = path.components.length := by
  simp [length, components]

theorem getFront_eq (path : FPath κ) : path.getFront = path.components.head? := by
  rw [components, List.head?_drop, getFront]
  split
  · rename_i h
    exact (List.getElem?_eq_none h).symm
  · rfl

/-- What is left without the first component. -/
theorem components_popFront (path : FPath κ) : path.popFront.components = path.components.tail := by
  unfold popFront
  split
  · exact List.tail_drop.symm
  · rename_i h
    rw [components_of_le (by omega)]
    rfl

theorem isEmpty_eq (path : FPath κ) : path.isEmpty = path.components.isEmpty := by
  rw [isEmpty, Bool.eq_iff_iff, decide_eq_true_iff, List.isEmpty_iff, components,
    List.drop_eq_nil_iff]

theorem getBack_eq (path : FPath κ) : path.getBack = path.components.getLast? := by
  rw [components, List.getLast?_drop, getBack]
  by_cases h : path.pieceNum < path.pieces.length
  · rw [if_pos h, if_neg (by omega)]
  · rw [if_neg h, if_pos (by omega)]

/-- The parent has all components but the last. -/
theorem components_parent (path : FPath κ) :
    path.parent.map components =
      if path.components.isEmpty then none else some path.components.dropLast := by
  rw [← isEmpty_eq]
  simp only [parent, isEmpty]
  split
  · rename_i h
    simp [h]
  · rename_i h
    have hdrop : (path.pieces.take (path.pieces.length - 1)).drop path.pieceNum =
        path.components.dropLast := by
      rw [components, List.dropLast_eq_take, List.drop_take, List.length_drop]
      congr 1
      omega
    simp [h, hdrop]

theorem components_child (path other : FPath κ) :
    (path.child other).components = path.components ++ other.components := rfl

/-- The relative path is what the inner one adds to the outer one. -/
theorem relativePathFrom_eq [DecidableEq κ] (outer inner : FPath κ) :
    (outer.relativePathFrom inner).map components =
      if outer.components <+: inner.components then
        some (inner.components.drop outer.components.length)
      else none := by
  induction outer, inner using relativePathFrom.induct with
  | case1 outer inner h heq ih =>
    rw [relativePathFrom, dif_pos h, if_pos heq, ih, components_popFront, components_popFront]
    rw [getFront_eq, getFront_eq] at heq
    rw [components_of_lt h] at heq ⊢
    cases hinner : inner.components with
    | nil => rw [hinner] at heq; cases heq
    | cons k rest =>
      rw [hinner] at heq
      obtain rfl := Option.some.inj heq
      simp only [List.tail_cons, List.cons_prefix_cons, List.length_cons, List.drop_succ_cons,
        true_and]
      exact if_congr Iff.rfl rfl rfl
  | case2 outer inner h hne =>
    -- the first components differ, or the inner path has ended
    rw [relativePathFrom, dif_pos h, if_neg hne, if_neg]
    · rfl
    · intro hpre
      rw [getFront_eq, getFront_eq] at hne
      rw [components_of_lt h] at hne hpre
      cases hinner : inner.components with
      | nil => rw [hinner] at hpre; cases List.prefix_nil.mp hpre
      | cons k rest =>
        rw [hinner] at hne hpre
        exact hne (by rw [(List.cons_prefix_cons.mp hpre).1]; rfl)
  | case3 outer inner h =>
    rw [relativePathFrom, dif_neg h, components_of_le (by omega)]
    simp

/-- `relativePathFrom:to:` on lists of components, where the outer path is known to be a part of
the inner one. -/
def relativePath (outer inner : List κ) (_ : outer <+: inner) : List κ := inner.drop outer.length

/-- Within the outer path the relative path is given without an exception. -/
theorem relativePathFrom_eq_some [DecidableEq κ] {outer inner : FPath κ}
    (h : outer.components <+: inner.components) :
    (outer.relativePathFrom inner).map components =
      some (relativePath outer.components inner.components h) := by
  rw [relativePathFrom_eq, if_pos h, relativePath]

/-- The loop compares what is left of the first path with as much of the other. -/
theorem containsLoop_iff [DecidableEq κ] (pieces other : List κ) (i j : ℕ)
    (hlen : pieces.length - i ≤ other.length - j) :
    containsLoop pieces other i j = true ↔ pieces.drop i <+: other.drop j := by
  induction i, j using containsLoop.induct pieces other with
  | case1 i j h heq ih =>
    -- the two components are the same, and the loop goes on
    have hj : j < other.length := by omega
    rw [containsLoop, dif_pos h, if_pos heq, ih (by omega), List.drop_eq_getElem_cons h,
      List.drop_eq_getElem_cons hj, List.cons_prefix_cons]
    rw [List.getElem?_eq_getElem h, List.getElem?_eq_getElem hj] at heq
    exact (and_iff_right (Option.some.inj heq)).symm
  | case2 i j h hne =>
    have hj : j < other.length := by omega
    rw [containsLoop, dif_pos h, if_neg hne, List.drop_eq_getElem_cons h,
      List.drop_eq_getElem_cons hj, List.cons_prefix_cons]
    rw [List.getElem?_eq_getElem h, List.getElem?_eq_getElem hj] at hne
    simp only [Bool.false_eq_true, false_iff, not_and]
    exact fun heq => absurd (congrArg some heq) hne
  | case3 i j h =>
    -- nothing is left of the first path
    rw [containsLoop, dif_neg h, List.drop_eq_nil_of_le (by omega)]
    simp

/-- A path contains those that continue it. -/
theorem contains_iff [DecidableEq κ] (path other : FPath κ) :
    path.contains other = true ↔ path.components <+: other.components := by
  unfold contains
  split
  · rename_i h
    rw [length_eq, length_eq] at h
    simp only [Bool.false_eq_true, false_iff]
    exact fun hpre => absurd hpre.length_le (by omega)
  · rename_i h
    exact containsLoop_iff _ _ _ _ (by simpa [length] using h)

/-- Whether one path is longer does not change when a component is taken off both. -/
theorem compare_sub_succ {a b i j : ℕ} (hi : i < a) (hj : j < b) :
    Ord.compare (a - i) (b - j) = Ord.compare (a - (i + 1)) (b - (j + 1)) := by
  rw [Nat.compare_eq_ite_lt, Nat.compare_eq_ite_lt]
  congr 1
  · exact propext (by omega)
  · congr 1
    exact propext (by omega)

/-- The loop gives the first difference of what is left. -/
theorem compareLoop_then (cmp : κ → κ → Ordering) (pieces other : List κ) (i j : ℕ) :
    (compareLoop cmp pieces other i j).then
        (Ord.compare (pieces.length - i) (other.length - j)) =
      List.compareLex cmp (pieces.drop i) (other.drop j) := by
  induction i, j using compareLoop.induct cmp pieces other with
  | case1 i j h heq ih =>
    -- the components compare as equal, and the loop goes on
    rw [compareLoop, dif_pos h, compare_sub_succ h.1 h.2, List.drop_eq_getElem_cons h.1,
      List.drop_eq_getElem_cons h.2, List.compareLex_cons_cons, ← ih]
    rw [List.get_eq_getElem, List.get_eq_getElem] at heq ⊢
    simp only [heq, Ordering.eq_then]
  | case2 i j h hne =>
    rw [compareLoop, dif_pos h, List.drop_eq_getElem_cons h.1, List.drop_eq_getElem_cons h.2,
      List.compareLex_cons_cons]
    rw [List.get_eq_getElem, List.get_eq_getElem] at hne ⊢
    cases hcmp : cmp pieces[i] other[j] with
    | eq => exact absurd hcmp hne
    | lt => rfl
    | gt => rfl
  | case3 i j h =>
    -- one path is at its end, and the shorter one is first
    rw [compareLoop, dif_neg h, Ordering.eq_then]
    by_cases hi : i < pieces.length
    · rw [show other.drop j = [] from List.drop_eq_nil_of_le (by omega),
        List.drop_eq_getElem_cons hi, List.compareLex_cons_nil, Nat.compare_eq_gt]
      omega
    · rw [show pieces.drop i = [] from List.drop_eq_nil_of_le (by omega)]
      by_cases hj : j < other.length
      · rw [List.drop_eq_getElem_cons hj, List.compareLex_nil_cons, Nat.compare_eq_lt]
        omega
      · rw [List.drop_eq_nil_of_le (by omega), List.compareLex_nil_nil, Nat.compare_eq_eq]
        omega

/-- Paths are compared component by component, and a path comes before those that continue it. -/
theorem compare_eq (cmp : κ → κ → Ordering) (path other : FPath κ) :
    path.compare cmp other = List.compareLex cmp path.components other.components := by
  rw [components, components, ← compareLoop_then, compare]
  cases compareLoop cmp path.pieces other.pieces path.pieceNum other.pieceNum <;> rfl

/-! ## Strings -/

/-- A component a path string can give: it is not empty and holds no slash. -/
def IsPiece (s : String) : Prop := s.toList ≠ [] ∧ '/' ∉ s.toList

/-- `initWith:`. -/
def initWith (path : String) : FPath String := ofPieces (LearnCode.pieces path)

/-- `toStringWithTrailingSlash:`. -/
def toStringWithTrailingSlash (path : FPath String) (trailingSlash : Bool) : String :=
  let pathString := (path.pieces.drop path.pieceNum).foldl (fun s piece => s ++ "/" ++ piece) ""
  if pathString.isEmpty then "/"
  else if trailingSlash then pathString ++ "/" else pathString

/-- `wireFormat`. -/
def wireFormat (path : FPath String) : String :=
  if path.isEmpty then "/"
  else
    match path.pieces.drop path.pieceNum with
    | [] => ""
    | piece :: rest => rest.foldl (fun s piece => s ++ "/" ++ piece) piece

/-- `childFromString:`. -/
def childFromString (path : FPath String) (childPath : String) : FPath String :=
  ofPieces (path.pieces.drop path.pieceNum ++ LearnCode.pieces childPath)

/-- What stands on both sides of a slash is split separately. -/
theorem pieces_append_slash (s t : String) :
    LearnCode.pieces (s ++ "/" ++ t) = LearnCode.pieces s ++ LearnCode.pieces t := by
  have hlist : (s ++ "/" ++ t).toList = s.toList ++ '/' :: t.toList := by simp
  rw [LearnCode.pieces, hlist, List.splitOn_append_cons_self]
  simp [LearnCode.pieces]

theorem pieces_of_isPiece {s : String} (h : IsPiece s) : LearnCode.pieces s = [s] := by
  rw [LearnCode.pieces, List.splitOn_eq_singleton h.2]
  simp [h.1]

/-- A part between separators holds no separator. -/
theorem notMem_of_mem_splitOn {a : Char} {l part : List Char} (h : part ∈ l.splitOn a) :
    a ∉ part := by
  rw [List.splitOn_eq_splitOnP] at h
  induction l generalizing part with
  | nil =>
    rw [List.splitOnP_nil, List.mem_singleton] at h
    simp [h]
  | cons c l ih =>
    rw [List.splitOnP_cons_eq_if_modifyHead] at h
    split at h
    · -- at a separator an empty part is added
      rcases List.mem_cons.mp h with rfl | htail
      · simp
      · exact ih htail
    · -- any other character is added to the first part
      rename_i hc
      obtain ⟨first, rest, hsplit⟩ := List.exists_cons_of_ne_nil (List.splitOnP_ne_nil (· == a) l)
      rw [hsplit, List.modifyHead_cons] at h
      rcases List.mem_cons.mp h with rfl | htail
      · have hfirst : a ∉ first := ih (by simp [hsplit])
        simp only [List.mem_cons, not_or]
        exact ⟨fun heq => hc (by simp [heq]), hfirst⟩
      · exact ih (by simp [hsplit, htail])

/-- Every component of a path string is a piece. -/
theorem isPiece_of_mem_components_initWith {path k : String}
    (h : k ∈ (initWith path).components) : IsPiece k := by
  obtain ⟨chars, hchars, rfl⟩ := List.mem_map.mp h
  obtain ⟨hmem, hne⟩ := List.mem_filter.mp hchars
  exact ⟨by simpa using hne, by simpa using notMem_of_mem_splitOn hmem⟩

/-- Components joined by slashes are split again. -/
theorem pieces_foldl {ks : List String} (h : ∀ k ∈ ks, IsPiece k) (s : String) :
    LearnCode.pieces (ks.foldl (fun s piece => s ++ "/" ++ piece) s) =
      LearnCode.pieces s ++ ks := by
  induction ks generalizing s with
  | nil => simp
  | cons k ks ih =>
    rw [List.foldl_cons, ih (fun k hk => h k (List.mem_cons_of_mem _ hk)), pieces_append_slash,
      pieces_of_isPiece (h k List.mem_cons_self), List.append_assoc]
    rfl

/-- A path is read from its string, with or without a slash at the end. -/
theorem components_initWith_toString {path : FPath String}
    (h : ∀ k ∈ path.components, IsPiece k) (trailingSlash : Bool) :
    (initWith (path.toStringWithTrailingSlash trailingSlash)).components = path.components := by
  have hfold := pieces_foldl h ""
  have hempty : LearnCode.pieces "" = [] := by decide
  have hslash : LearnCode.pieces "/" = [] := by decide
  rw [hempty, List.nil_append, components] at hfold
  simp only [initWith, components_ofPieces, toStringWithTrailingSlash]
  split
  · rename_i hnil
    rw [String.isEmpty_iff.mp hnil, hempty] at hfold
    rw [hslash, components, ← hfold]
  · split
    · have hend := pieces_append_slash ((path.pieces.drop path.pieceNum).foldl
        (fun s piece => s ++ "/" ++ piece) "") ""
      rw [String.append_empty, hempty, hfold, List.append_nil] at hend
      exact hend
    · exact hfold

/-- A path is read from what is sent. -/
theorem components_initWith_wireFormat {path : FPath String}
    (h : ∀ k ∈ path.components, IsPiece k) :
    (initWith path.wireFormat).components = path.components := by
  rw [initWith, components_ofPieces, wireFormat, isEmpty_eq]
  change LearnCode.pieces (if path.components.isEmpty then "/" else
    match path.components with
    | [] => ""
    | piece :: rest => rest.foldl (fun s piece => s ++ "/" ++ piece) piece) = path.components
  cases hks : path.components with
  | nil => decide
  | cons k ks =>
    rw [hks] at h
    rw [List.isEmpty_cons, if_neg Bool.false_ne_true,
      pieces_foldl (fun k hk => h k (List.mem_cons_of_mem _ hk)),
      pieces_of_isPiece (h k List.mem_cons_self)]
    rfl

/-- A path is read again from each of the ways it is written if and only if its components are
pieces. -/
theorem components_initWith_iff (path : FPath String) (trailingSlash : Bool) :
    ((initWith (path.toStringWithTrailingSlash trailingSlash)).components = path.components ↔
      ∀ k ∈ path.components, IsPiece k) ∧
    ((initWith path.wireFormat).components = path.components ↔
      ∀ k ∈ path.components, IsPiece k) := by
  have hpieces : ∀ s : String, (initWith s).components = path.components →
      ∀ k ∈ path.components, IsPiece k := fun s heq k hk =>
    isPiece_of_mem_components_initWith (heq ▸ hk)
  exact ⟨⟨hpieces _, fun h => components_initWith_toString h trailingSlash⟩,
    ⟨hpieces _, components_initWith_wireFormat⟩⟩

end FPath

end LearnCode.FirebaseDatabase
