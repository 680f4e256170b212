import LearnCode.FirebaseDatabase.NodeSnapshot
import LearnCode.FirebaseDatabase.PendingWrites
import LearnCode.Library.PathOrder

/-!
# Updates of several paths

How the client makes a compound write of the dictionary that is given to `updateChildValues`, and
which dictionaries it refuses.

## Main definitions

* `UpdateKey`: a path string whose components are keys;
* `validUpdateDictionaryKey`: the check of a key with its value;
* `compoundWriteFromDictionary`: the compound write, or the exception;
* `Accepted`: an entry of the dictionary is accepted, and the node that is written.

## Main results

* `compoundWriteFromDictionary_isOk_iff`: a dictionary is accepted if its keys and values are and
  its paths lie apart;
* `compoundWriteFromDictionary_of_perm`: the order in which it is enumerated does not matter;
* `database_merge`: a merge of the compound write is the update of the app.
-/

namespace LearnCode.FirebaseDatabase

open ChildKey PathStore FCompoundWrite

/-- A key of an update: a path string, with its components. -/
structure UpdateKey where
  /-- The string. -/
  keyId : String
  /-- `[FPath pathWithString:]`. -/
  path : List ChildKey
  /-- The components are those of the string. -/
  path_eq : path.map ChildKey.name = pieces keyId

namespace FValidation

/-- The block of `validateFrom:validUpdateDictionaryKey:withValue:` over the components of a path of
a length, where `keyNum` legal keys have been passed. -/
def validUpdateComponents (fn : String) (length : ℕ) (value : Payload) :
    List ChildKey → (keyNum : ℕ) → Except NSException Unit
  | [], _ => return ()
  | key :: rest, keyNum => do
    if key = priorityKey ∧ keyNum + 1 = length then
      isValidPriorityValue fn [] value
      validUpdateComponents fn length value rest keyNum
    else if isValidKey key.name = false then
      throw (invalidFirebaseData fn
        "Invalid key in object. Keys must be non-empty and cannot contain '.' '#' '$' '[' or ']'")
    else validUpdateComponents fn length value rest (keyNum + 1)

/-- `validateFrom:validUpdateDictionaryKey:withValue:`. -/
def validUpdateDictionaryKey (fn : String) (keyId : UpdateKey) (value : Payload) :
    Except NSException Unit :=
  validUpdateComponents fn keyId.path.length value keyId.path 0

end FValidation

namespace FSnapshotUtilities

open FValidation

/-- `toString` of a path. -/
def pathToString (path : FPath ChildKey) : String :=
  (FPath.ofPieces (path.components.map ChildKey.name)).toStringWithTrailingSlash false

/-- The check that no path contains the one after it. -/
def checkDescendants (fn : String) :
    (prevPath : Option (FPath ChildKey)) → List (FPath ChildKey) → Except NSException Unit
  | _, [] => return ()
  | none, path :: rest => checkDescendants fn (some path) rest
  | some prevPath, path :: rest =>
    if prevPath.contains path then
      throw (invalidFirebaseData fn ("Invalid path in object. Path (" ++ pathToString prevPath ++
        ") is an ancestor of (" ++ pathToString path ++ ")."))
    else checkDescendants fn (some path) rest

variable (cmp : ChildKey → ChildKey → Ordering) (classDescription : Payload → String) (fn : String)

/-- The loop of `compoundWriteFromDictionary:withValidationFrom:` over the dictionary. -/
def updateLoop : List (UpdateKey × Payload) → (updatePaths : List (FPath ChildKey)) →
    FCompoundWrite LeafValue →
      Except NSException (List (FPath ChildKey) × FCompoundWrite LeafValue)
  | [], updatePaths, compoundWrite => return (updatePaths, compoundWrite)
  | (keyId, value) :: rest, updatePaths, compoundWrite => do
    validUpdateDictionaryKey fn keyId value
    let node ← nodeFrom classDescription fn value .null 0 []
    updateLoop rest (updatePaths ++ [FPath.ofPieces keyId.path])
      (compoundWrite.addWrite cmp node keyId.path)

/-- `compoundWriteFromDictionary:withValidationFrom:`. -/
def compoundWriteFromDictionary (values : List (UpdateKey × Payload)) :
    Except NSException (FCompoundWrite LeafValue) := do
  let (updatePaths, compoundWrite) ← updateLoop cmp classDescription fn values [] emptyWrite
  checkDescendants fn none
    (updatePaths.mergeSort fun left right => (left.compare keyComparator right).isLE)
  return compoundWrite

variable {cmp} {classDescription fn}

/-! ## What is accepted -/

variable (classDescription fn) in
/-- A key and a value are accepted, and the value is made a node. -/
def Accepted (e : UpdateKey × Payload) (u : List ChildKey × FNode LeafValue) : Prop :=
  validUpdateDictionaryKey fn e.1 e.2 = .ok () ∧
    nodeFrom classDescription fn e.2 .null 0 [] = .ok u.2 ∧ u.1 = e.1.path

/-- The loop ends if every entry is accepted, and adds the writes one after another. -/
theorem updateLoop_eq_ok {values : List (UpdateKey × Payload)} {updatePaths : List (FPath ChildKey)}
    {w : FCompoundWrite LeafValue} {result : List (FPath ChildKey) × FCompoundWrite LeafValue} :
    updateLoop cmp classDescription fn values updatePaths w = .ok result ↔
      ∃ us, List.Forall₂ (Accepted classDescription fn) values us ∧
        result = (updatePaths ++ us.map fun u => FPath.ofPieces u.1, addAll cmp us w) := by
  induction values generalizing updatePaths w with
  | nil =>
    constructor
    · -- the loop has nothing left to look at
      intro h
      cases h
      exact ⟨[], .nil, by simp [addAll]⟩
    · rintro ⟨us, hus, rfl⟩
      cases hus
      simp [updateLoop, addAll]
      rfl
  | cons e rest ih =>
    obtain ⟨keyId, value⟩ := e
    rw [updateLoop]
    constructor
    · intro h
      obtain ⟨⟨⟩, hvalid, h⟩ := bind_eq_ok.mp h
      obtain ⟨node, hnode, h⟩ := bind_eq_ok.mp h
      obtain ⟨us, hus, rfl⟩ := ih.mp h
      exact ⟨(keyId.path, node) :: us, .cons ⟨hvalid, hnode, rfl⟩ hus, by simp [addAll]⟩
    · rintro ⟨us, hus, rfl⟩
      cases hus with
      | @cons _ u _ us haccepted hus =>
        obtain ⟨hvalid, hnode, hpath⟩ := haccepted
        refine bind_eq_ok.mpr ⟨(), hvalid, bind_eq_ok.mpr ⟨u.2, hnode, ?_⟩⟩
        exact ih.mpr ⟨us, hus, by simp [addAll, hpath]⟩

/-- The check of the sorted paths passes when no path contains the one after it. -/
theorem checkDescendants_eq_ok {prevPath : Option (FPath ChildKey)}
    {paths : List (FPath ChildKey)} :
    checkDescendants fn prevPath paths = .ok () ↔
      ((prevPath.toList ++ paths).map FPath.components).IsChain (fun p q => ¬p <+: q) := by
  induction paths generalizing prevPath with
  | nil => cases prevPath <;> simp [checkDescendants] <;> rfl
  | cons path rest ih =>
    cases prevPath with
    | none =>
      rw [checkDescendants, ih]
      rfl
    | some prevPath =>
      rw [checkDescendants]
      split
      · -- the path before contains this one, and the check ends here
        rename_i hcontains
        refine ⟨nofun, fun hchain => ?_⟩
        exact absurd ((FPath.contains_iff _ _).mp hcontains) (List.isChain_cons_cons.mp hchain).1
      · rename_i hcontains
        rw [ih]
        constructor
        · exact fun hchain => List.isChain_cons_cons.mpr
            ⟨fun h => hcontains ((FPath.contains_iff _ _).mpr h), hchain⟩
        · exact fun hchain => (List.isChain_cons_cons.mp hchain).2

/-- The sorted paths are checked to lie apart. -/
theorem checkDescendants_mergeSort (paths : List (List ChildKey)) :
    checkDescendants fn none ((paths.map FPath.ofPieces).mergeSort
        fun left right => (left.compare keyComparator right).isLE) = .ok () ↔
      paths.Pairwise Apart := by
  have hsorted : ((paths.map FPath.ofPieces).mergeSort
      fun left right => (left.compare keyComparator right).isLE).map FPath.components =
        paths.mergeSort (PathOrder.le keyComparator) := by
    rw [List.map_mergeSort (s := PathOrder.le keyComparator), List.map_map]
    · congr 1
      exact List.map_id paths
    · intro p _ q _
      rw [FPath.compare_eq, PathOrder.le]
  rw [checkDescendants_eq_ok, Option.toList_none, List.nil_append, hsorted,
    PathOrder.isChain_mergeSort_iff]

/-- A dictionary is made the compound write of its entries, if they are accepted and their paths lie
apart. -/
theorem compoundWriteFromDictionary_eq_ok {values : List (UpdateKey × Payload)}
    {w : FCompoundWrite LeafValue} :
    compoundWriteFromDictionary cmp classDescription fn values = .ok w ↔
      ∃ us, List.Forall₂ (Accepted classDescription fn) values us ∧
        (us.map Prod.fst).Pairwise Apart ∧ w = addAll cmp us emptyWrite := by
  rw [compoundWriteFromDictionary, bind_eq_ok]
  constructor
  · rintro ⟨result, hloop, h⟩
    obtain ⟨us, hus, rfl⟩ := updateLoop_eq_ok.mp hloop
    obtain ⟨⟨⟩, hcheck, h⟩ := bind_eq_ok.mp h
    rw [List.nil_append, ← Function.comp_def, ← List.map_map, checkDescendants_mergeSort] at hcheck
    cases h
    exact ⟨us, hus, hcheck, rfl⟩
  · rintro ⟨us, hus, happart, rfl⟩
    refine ⟨_, updateLoop_eq_ok.mpr ⟨us, hus, rfl⟩, bind_eq_ok.mpr ⟨(), ?_, rfl⟩⟩
    rw [List.nil_append, ← Function.comp_def, ← List.map_map]
    exact (checkDescendants_mergeSort _).mpr happart

/-- The entries of a list are related to some others, if each is related to one. -/
theorem exists_forall₂_iff {values : List (UpdateKey × Payload)} :
    (∃ us, List.Forall₂ (Accepted classDescription fn) values us) ↔
      ∀ e ∈ values, ∃ u, Accepted classDescription fn e u := by
  induction values with
  | nil => exact ⟨fun _ => by simp, fun _ => ⟨[], .nil⟩⟩
  | cons e values ih =>
    rw [List.forall_mem_cons, ← ih]
    constructor
    · rintro ⟨us, hus⟩
      cases hus with
      | cons hu hus => exact ⟨⟨_, hu⟩, _, hus⟩
    · rintro ⟨⟨u, hu⟩, us, hus⟩
      exact ⟨u :: us, .cons hu hus⟩

/-- Accepted entries keep their paths. -/
theorem map_path_of_forall₂ {values : List (UpdateKey × Payload)}
    {us : List (List ChildKey × FNode LeafValue)}
    (h : List.Forall₂ (Accepted classDescription fn) values us) :
    us.map Prod.fst = values.map fun e => e.1.path := by
  induction h with
  | nil => rfl
  | cons haccepted _ ih => rw [List.map_cons, List.map_cons, ih, haccepted.2.2]

variable (cmp classDescription fn) in
/-- A dictionary is accepted if and only if each key and each value is and no path is another one or
above it. -/
theorem compoundWriteFromDictionary_isOk_iff (values : List (UpdateKey × Payload)) :
    (∃ w, compoundWriteFromDictionary cmp classDescription fn values = .ok w) ↔
      (∀ e ∈ values, validUpdateDictionaryKey fn e.1 e.2 = .ok () ∧
        ∃ node, nodeFrom classDescription fn e.2 .null 0 [] = .ok node) ∧
      (values.map fun e => e.1.path).Pairwise Apart := by
  simp only [compoundWriteFromDictionary_eq_ok]
  constructor
  · rintro ⟨w, us, hus, happart, -⟩
    refine ⟨fun e he => ?_, by rwa [← map_path_of_forall₂ hus]⟩
    obtain ⟨u, hvalid, hnode, -⟩ := exists_forall₂_iff.mp ⟨us, hus⟩ e he
    exact ⟨hvalid, u.2, hnode⟩
  · rintro ⟨hall, happart⟩
    obtain ⟨us, hus⟩ := exists_forall₂_iff.mpr fun e he =>
      (hall e he).2.elim fun node hnode => ⟨(e.1.path, node), (hall e he).1, hnode, rfl⟩
    exact ⟨_, us, hus, by rwa [map_path_of_forall₂ hus], rfl⟩

/-! ## What is written -/

/-- A value that is accepted as a priority is made one. -/
theorem isPriority_of_isValidPriorityValue {value : Payload} {n : FNode LeafValue}
    (hvalid : isValidPriorityValue fn [] value = .ok ())
    (h : nodeFrom classDescription fn value .null 0 [] = .ok n) : n.IsPriority := by
  cases value with
  | null =>
    obtain ⟨⟨⟩, -, h⟩ := bind_eq_ok.mp h
    cases h
    exact .empty
  | scalar s =>
    rw [nodeFrom] at h
    obtain ⟨⟨⟩, -, h⟩ := bind_eq_ok.mp h
    obtain ⟨⟨⟩, -, h⟩ := bind_eq_ok.mp h
    obtain ⟨priority, hpriority, h⟩ := bind_eq_ok.mp h
    obtain ⟨isLeaf, -, h⟩ := bind_eq_ok.mp h
    cases hpriority
    cases h
    exact .leaf _
  | array => cases hvalid
  | dict entries =>
    simp only [isValidPriorityValue] at hvalid
    split at hvalid
    · rename_i hsome
      split at hvalid
      · cases hvalid
      · rename_i hlen
        -- a value the server fills in is the only dictionary that is a priority
        obtain ⟨value, rfl⟩ := eq_singleton_of_lookup hsome hlen
        have hleaf := (isValidLeafValue_toPayload fn [] (.serverValue value)).1
        have hnode : nodeFrom classDescription fn (.dict [(serverValueKey, value)]) .null 0 [] =
            .ok (.leaf (.serverValue (.dict [(serverValueKey, value)])) .empty) :=
          bind_eq_ok.mpr ⟨(), rfl, bind_eq_ok.mpr ⟨(), rfl, bind_eq_ok.mpr ⟨.empty, rfl,
            bind_eq_ok.mpr ⟨.empty, rfl, bind_eq_ok.mpr ⟨true, hleaf, rfl⟩⟩⟩⟩⟩
        obtain rfl := Except.ok.inj (hnode.symm.trans h)
        exact .leaf _
    · cases hvalid

/-- A node may be put at the path of a key that is accepted with its value: only the last component
is a priority. -/
theorem writable_of_validUpdateComponents {path : List ChildKey} {length keyNum : ℕ}
    {value : Payload} {n : FNode LeafValue} (hlength : keyNum + path.length = length)
    (hvalid : validUpdateComponents fn length value path keyNum = .ok ())
    (h : nodeFrom classDescription fn value .null 0 [] = .ok n) : n.Writable path := by
  induction path generalizing keyNum with
  | nil => exact (nodeFrom_storable classDescription fn value h).wellFormed
  | cons key rest ih =>
    rw [List.length_cons] at hlength
    rw [FNode.Writable]
    rw [validUpdateComponents] at hvalid
    by_cases hkey : key = priorityKey
    · rw [if_pos hkey]
      -- only the last component may be the key of the priority
      by_cases hlast : keyNum + 1 = length
      · rw [if_pos ⟨hkey, hlast⟩] at hvalid
        obtain ⟨⟨⟩, hvalid, -⟩ := bind_eq_ok.mp hvalid
        exact ⟨List.eq_nil_of_length_eq_zero (by omega),
          isPriority_of_isValidPriorityValue hvalid h⟩
      · rw [if_neg fun hboth => hlast hboth.2, hkey, if_pos (by decide)] at hvalid
        cases hvalid
    · rw [if_neg hkey]
      rw [if_neg fun hboth => hkey hboth.1] at hvalid
      split at hvalid
      · cases hvalid
      · exact ih (by omega) hvalid

/-- What is accepted may be written. -/
theorem allWritable_of_forall₂ {values : List (UpdateKey × Payload)}
    {us : List (List ChildKey × FNode LeafValue)}
    (h : List.Forall₂ (Accepted classDescription fn) values us) : AllWritable us := by
  induction h with
  | nil => exact fun u hu => nomatch hu
  | @cons e u _ _ haccepted _ ih =>
    obtain ⟨hvalid, hnode, hpath⟩ := haccepted
    refine allWritable_cons.mpr ⟨?_, ih⟩
    rw [hpath]
    exact writable_of_validUpdateComponents (Nat.zero_add _) hvalid hnode

end FSnapshotUtilities

/-! ## Writes that lie apart -/

namespace FCompoundWrite

variable {α : Type} {cmp : ChildKey → ChildKey → Ordering} [Std.TransCmp cmp]
  [Std.LawfulEqCmp cmp] {us : List (List ChildKey × FNode α)}

omit [Std.TransCmp cmp] [Std.LawfulEqCmp cmp] in
/-- Paths that lie apart are distinct. -/
theorem nodup_of_pairwise_apart (h : (us.map Prod.fst).Pairwise Apart) :
    (us.map Prod.fst).Nodup := by
  refine List.Pairwise.imp (fun {p q} happart => ?_) h
  rintro rfl
  exact happart.1 List.prefix_rfl

/-- Writes whose paths lie apart from each other and from those that are there are kept as they
are. -/
theorem valueAtPath_addAll_eq_some (hus : AllWritable us)
    (happart : (us.map Prod.fst).Pairwise Apart) {w : FCompoundWrite α}
    (hw : WriteTree cmp w.writeTree)
    (hsep : ∀ u ∈ us, ∀ q v, w.writeTree.valueAtPath cmp q = some v → Apart u.1 q)
    (q : List ChildKey) (v : FNode α) :
    (addAll cmp us w).writeTree.valueAtPath cmp q = some v ↔
      (q, v) ∈ us ∨ w.writeTree.valueAtPath cmp q = some v := by
  induction us generalizing w with
  | nil => simp [addAll]
  | cons u us ih =>
    obtain ⟨p, c⟩ := u
    obtain ⟨hu, hus⟩ := allWritable_cons.mp hus
    obtain ⟨hp, happart⟩ := List.pairwise_cons.mp happart
    -- nothing that is there is at the path of the first write or above
    have hfind : w.writeTree.findRootMostValueAndPath cmp p = none := by
      refine (FImmutableTree.findRootMostMatchingPath_eq_none_iff _).mpr fun r hr => ?_
      cases hvalue : w.writeTree.valueAtPath cmp r with
      | none => rfl
      | some v => exact absurd hr (hsep _ List.mem_cons_self r v hvalue).2
    have hvalue : ∀ q v, (w.addWrite cmp c p).writeTree.valueAtPath cmp q = some v ↔
        (q = p ∧ v = c) ∨ w.writeTree.valueAtPath cmp q = some v := by
      intro q v
      have hold : w.writeTree.valueAtPath cmp q = some v → ¬p <+: q := fun h =>
        (hsep _ List.mem_cons_self q v h).1
      rw [show w = ⟨w.writeTree⟩ from rfl, valueAtPath_addWrite hw, hfind]
      by_cases hq : q = p
      · subst hq
        have hnone : w.writeTree.valueAtPath cmp q ≠ some v := fun h => hold h List.prefix_rfl
        simp [hnone, eq_comm]
      · by_cases hpq : p <+: q
        · have hnone : w.writeTree.valueAtPath cmp q ≠ some v := fun h => hold h hpq
          simp [hq, hpq, hnone]
        · simp [hq, hpq]
    rw [addAll_cons, ih hus happart (hw.addWrite hu), hvalue, List.mem_cons, Prod.mk.injEq]
    · tauto
    · intro u' hu' q v hv
      rcases (hvalue q v).mp hv with ⟨rfl, -⟩ | hold
      · exact (hp u'.1 (List.mem_map_of_mem hu')).symm
      · exact hsep u' (List.mem_cons_of_mem _ hu') q v hold

/-- Writes whose paths lie apart are the values of the tree they are added to. -/
theorem valueAtPath_addAll_emptyWrite (hus : AllWritable us)
    (happart : (us.map Prod.fst).Pairwise Apart) (q : List ChildKey) (v : FNode α) :
    (addAll cmp us emptyWrite).writeTree.valueAtPath cmp q = some v ↔ (q, v) ∈ us := by
  have hempty : ∀ q, (emptyWrite : FCompoundWrite α).writeTree.valueAtPath cmp q = none :=
    FImmutableTree.valueAtPath_empty
  have hsep : ∀ u ∈ us, ∀ q v,
      (emptyWrite : FCompoundWrite α).writeTree.valueAtPath cmp q = some v → Apart u.1 q := by
    intro u _ q v h
    rw [hempty] at h
    cases h
  rw [valueAtPath_addAll_eq_some hus happart writeTree_emptyWrite hsep, hempty]
  simp

/-- Writes whose paths lie apart are the writes of the compound write. -/
theorem forEach_addAll_perm (hus : AllWritable us) (happart : (us.map Prod.fst).Pairwise Apart) :
    (addAll cmp us emptyWrite).writeTree.forEach.Perm us := by
  have htree : (addAll cmp us emptyWrite).writeTree.Pruned cmp :=
    (WriteTree.addAll hus writeTree_emptyWrite).pruned
  refine (List.perm_ext_iff_of_nodup (FImmutableTree.nodup_forEach htree).of_map
    (nodup_of_pairwise_apart happart).of_map).mpr fun u => ?_
  rw [FImmutableTree.mem_forEach_iff htree, valueAtPath_addAll_emptyWrite hus happart]

/-- The order of writes whose paths lie apart does not matter. -/
theorem addAll_eq_of_perm {us' : List (List ChildKey × FNode α)} (hus : AllWritable us)
    (happart : (us.map Prod.fst).Pairwise Apart) (hperm : us.Perm us') :
    addAll cmp us emptyWrite = addAll cmp us' emptyWrite := by
  have hus' : AllWritable us' := fun u hu => hus u (hperm.mem_iff.mpr hu)
  have happart' : (us'.map Prod.fst).Pairwise Apart :=
    ((hperm.map Prod.fst).pairwise_iff fun h => h.symm).mp happart
  have htree := FImmutableTree.Pruned.eq_of_valueAtPath_eq
    (WriteTree.addAll hus writeTree_emptyWrite : WriteTree cmp _).pruned
    (WriteTree.addAll hus' writeTree_emptyWrite).pruned fun q => Option.ext fun v => by
      rw [valueAtPath_addAll_emptyWrite hus happart, valueAtPath_addAll_emptyWrite hus' happart',
        hperm.mem_iff]
  exact congrArg FCompoundWrite.mk htree

omit [Std.TransCmp cmp] [Std.LawfulEqCmp cmp] in
/-- Writes whose paths lie apart act on the leaves in any order. -/
theorem orderly_flatMap_effect (happart : (us.map Prod.fst).Pairwise Apart) :
    Orderly (us.flatMap effect) := by
  refine .of_pairwise_apart (happart.sublist ?_)
  induction us with
  | nil => exact .slnil
  | cons u us ih =>
    rw [List.flatMap_cons, List.map_append, List.map_cons]
    have ih := ih (List.pairwise_cons.mp happart).2
    unfold effect
    split
    · exact ih.cons u.1
    · have hpath : (FNode.updateOp u.1 u.2).path = u.1 := by
        rw [FNode.updateOp]
        split <;> rfl
      rw [List.map_singleton, hpath]
      exact ih.cons_cons u.1

/-- The leaves of a node after writes whose paths lie apart. -/
theorem leaves_applyToNode_of_apart (hus : AllWritable us)
    (happart : (us.map Prod.fst).Pairwise Apart) {n : FNode α} (hn : n.WellFormed) :
    ((addAll cmp us emptyWrite).applyToNode n).leaves = applyAll (us.flatMap effect) n.leaves := by
  have hperm : (addAll cmp us emptyWrite).writeTree.forEach.Perm us :=
    forEach_addAll_perm hus happart
  have happart' := ((hperm.map Prod.fst).pairwise_iff fun h => h.symm).mpr happart
  rw [leaves_applyToNode (WriteTree.addAll hus writeTree_emptyWrite : WriteTree cmp _) hn]
  exact applyAll_eq_of_perm (orderly_flatMap_effect happart') (orderly_flatMap_effect happart)
    (hperm.flatMap_right effect) n.leaves

variable (cmp) in
/-- A merge of writes whose paths lie apart at a path is that of the writes below the path. -/
theorem addCompoundWrite_addAll (hus : AllWritable us)
    (happart : (us.map Prod.fst).Pairwise Apart) {r : List ChildKey} (hr : priorityKey ∉ r) :
    emptyWrite.addCompoundWrite cmp (addAll cmp us emptyWrite) r =
        addAll cmp (us.map fun u => (r ++ u.1, u.2)) emptyWrite ∧
      AllWritable (us.map fun u => (r ++ u.1, u.2)) ∧
      ((us.map fun u => (r ++ u.1, u.2)).map Prod.fst).Pairwise Apart := by
  have hperm : (addAll cmp us emptyWrite).writeTree.forEach.Perm us :=
    forEach_addAll_perm hus happart
  have hbelow : AllWritable (us.map fun u => (r ++ u.1, u.2)) := by
    intro u hu
    obtain ⟨u', hu', rfl⟩ := List.mem_map.mp hu
    exact (FNode.writable_append_iff hr).mpr (hus u' hu')
  have happart' : ((us.map fun u => (r ++ u.1, u.2)).map Prod.fst).Pairwise Apart := by
    rw [List.map_map]
    rw [List.pairwise_map] at happart ⊢
    refine happart.imp fun {a b} h => ⟨?_, ?_⟩
    · exact fun hpre => h.1 ((List.prefix_append_right_inj r).mp hpre)
    · exact fun hpre => h.2 ((List.prefix_append_right_inj r).mp hpre)
  refine ⟨?_, hbelow, happart'⟩
  rw [addCompoundWrite_eq]
  exact (addAll_eq_of_perm hbelow happart' (hperm.symm.map _)).symm

end FCompoundWrite

namespace FSnapshotUtilities

variable {cmp : ChildKey → ChildKey → Ordering} [Std.TransCmp cmp] [Std.LawfulEqCmp cmp]
  (classDescription : Payload → String) (fn : String)

/-- The order in which a dictionary is enumerated does not matter. -/
theorem compoundWriteFromDictionary_of_perm {values values' : List (UpdateKey × Payload)}
    (hperm : values.Perm values') {w : FCompoundWrite LeafValue}
    (h : compoundWriteFromDictionary cmp classDescription fn values = .ok w) :
    compoundWriteFromDictionary cmp classDescription fn values' = .ok w := by
  obtain ⟨us, hus, happart, rfl⟩ := compoundWriteFromDictionary_eq_ok.mp h
  obtain ⟨us', hus', hperm'⟩ := List.perm_comp_forall₂ hperm.symm hus
  have happart' : (us'.map Prod.fst).Pairwise Apart :=
    ((hperm'.map Prod.fst).pairwise_iff fun h => h.symm).mpr happart
  exact compoundWriteFromDictionary_eq_ok.mpr ⟨us', hus', happart',
    (addAll_eq_of_perm (allWritable_of_forall₂ hus') happart' hperm').symm⟩

/-- Two entries of an update. -/
def twoUpdates : List (UpdateKey × Payload) :=
  [({ keyId := "a/b", path := [⟨"a", by decide⟩, ⟨"b", by decide⟩], path_eq := by decide },
      .scalar (.int 1)),
    ({ keyId := "/c", path := [⟨"c", by decide⟩], path_eq := by decide }, .scalar (.int 2))]

/-- The two entries are accepted. -/
theorem compoundWriteFromDictionary_twoUpdates :
    compoundWriteFromDictionary keyComparator (fun _ => "") "updateChildValues:" twoUpdates =
      .ok (addAll keyComparator
        [([⟨"a", by decide⟩, ⟨"b", by decide⟩], .leaf (.scalar (.int 1)) .empty),
          ([⟨"c", by decide⟩], .leaf (.scalar (.int 2)) .empty)] emptyWrite) :=
  compoundWriteFromDictionary_eq_ok.mpr
    ⟨_, .cons ⟨rfl, rfl, rfl⟩ (.cons ⟨rfl, rfl, rfl⟩ .nil), by decide, rfl⟩

/-- Two entries, in the other order. -/
theorem compoundWriteFromDictionary_of_perm_two :
    compoundWriteFromDictionary keyComparator (fun _ => "") "updateChildValues:"
        twoUpdates.reverse =
      .ok (addAll keyComparator
        [([⟨"a", by decide⟩, ⟨"b", by decide⟩], .leaf (.scalar (.int 1)) .empty),
          ([⟨"c", by decide⟩], .leaf (.scalar (.int 2)) .empty)] emptyWrite) :=
  compoundWriteFromDictionary_of_perm _ _ twoUpdates.reverse_perm.symm
    compoundWriteFromDictionary_twoUpdates

variable {classDescription fn} in
/-- An accepted entry with a leaf, as an operation on the store. -/
theorem map_nameOp_effect {e : UpdateKey × Payload} {u : List ChildKey × FNode LeafValue}
    (h : Accepted classDescription fn e u) (hplain : e.2.Plain)
    (hleaf : ∃ path s, e.2.toValue.leaf path = some s) (hkeys : priorityKey ∉ e.1.path)
    {r : List ChildKey} (hr : priorityKey ∉ r) :
    (effect (r ++ u.1, u.2)).map nameOp =
      [.write (r.map ChildKey.name ++ pieces e.1.keyId) fun path => e.2.toValue.leaf path] := by
  obtain ⟨-, hnode, hpath⟩ := h
  have hdatabase := FNode.database_nodeFrom hplain hnode
  -- a value with a leaf gives a node that is not empty, so it is written and not removed
  have hne : u.2 ≠ .empty := by
    obtain ⟨path, s, hs⟩ := hleaf
    intro hempty
    obtain ⟨q, -, hq⟩ := FNode.exists_of_database_eq_some ((congrFun hdatabase path).trans hs)
    rw [hempty, FNode.leaves_empty] at hq
    cases hq
  have hempty := (nodeFrom_storable classDescription fn _ hnode).wellFormed.isEmpty_eq_false hne
  have hnotMem : priorityKey ∉ r ++ u.1 := by
    rw [hpath]
    exact FNode.priorityKey_notMem_append_iff.mpr ⟨hr, hkeys⟩
  have hname : (r ++ u.1).map ChildKey.name = r.map ChildKey.name ++ pieces e.1.keyId := by
    rw [List.map_append, hpath, e.1.path_eq]
  rw [effect, if_neg hnotMem, FNode.updateOp, hempty]
  simp only [Bool.false_eq_true, if_false, List.map_cons, List.map_nil, nameOp, hname]
  exact congrArg (fun v => [Op.write (r.map ChildKey.name ++ pieces e.1.keyId) v]) hdatabase

/-- Accepted entries, as operations on the store. -/
theorem map_nameOp_flatMap_effect {values : List (UpdateKey × Payload)}
    {us : List (List ChildKey × FNode LeafValue)}
    (h : List.Forall₂ (Accepted classDescription fn) values us)
    (hplain : ∀ e ∈ values, e.2.Plain)
    (hleaf : ∀ e ∈ values, ∃ path s, e.2.toValue.leaf path = some s)
    (hkeys : ∀ e ∈ values, priorityKey ∉ e.1.path) {r : List ChildKey} (hr : priorityKey ∉ r) :
    ((us.map fun u => (r ++ u.1, u.2)).flatMap effect).map nameOp =
      updateOps (r.map ChildKey.name) (values.map fun e => (e.1.keyId, e.2.toValue)) := by
  induction h with
  | nil => rfl
  | @cons e u _ _ haccepted _ ih =>
    rw [List.forall_mem_cons] at hplain hleaf hkeys
    have hentry := map_nameOp_effect haccepted hplain.1 hleaf.1 hkeys.1 hr
    have hrest := ih hplain.2 hleaf.2 hkeys.2
    rw [List.map_cons, List.flatMap_cons, List.map_append, hentry, hrest]
    rfl

/-- A merge of an accepted dictionary at a path is the update of the app: the leaves of the node
after it are those of the store after `updateChildValues`. -/
theorem database_merge {values : List (UpdateKey × Payload)} {w : FCompoundWrite LeafValue}
    (h : compoundWriteFromDictionary cmp classDescription fn values = .ok w)
    (hplain : ∀ e ∈ values, e.2.Plain)
    (hleaf : ∀ e ∈ values, ∃ path s, e.2.toValue.leaf path = some s)
    (hkeys : ∀ e ∈ values, priorityKey ∉ e.1.path) {r : List ChildKey} (hr : priorityKey ∉ r)
    {n : FNode LeafValue} (hn : n.WellFormed) :
    ((emptyWrite.addCompoundWrite cmp w r).applyToNode n).database =
      applyAll (updateOps (r.map ChildKey.name) (values.map fun e => (e.1.keyId, e.2.toValue)))
        n.database := by
  obtain ⟨us, hus, happart, rfl⟩ := compoundWriteFromDictionary_eq_ok.mp h
  obtain ⟨hmerge, hall, happart'⟩ :=
    addCompoundWrite_addAll cmp (allWritable_of_forall₂ hus) happart hr
  rw [hmerge, FNode.database, leaves_applyToNode_of_apart hall happart' hn, nameStore_applyAll,
    map_nameOp_flatMap_effect classDescription fn hus hplain hleaf hkeys hr]
  rfl

/-- Two entries at a path of an empty node. -/
theorem database_merge_two :
    ((emptyWrite.addCompoundWrite keyComparator (addAll keyComparator
        [([⟨"a", by decide⟩, ⟨"b", by decide⟩], .leaf (.scalar (.int 1)) .empty),
          ([⟨"c", by decide⟩], .leaf (.scalar (.int 2)) .empty)] emptyWrite)
        [⟨"users", by decide⟩]).applyToNode .empty).database ["users", "a", "b"] =
      some (.int 1) := by
  have hplain : ∀ e ∈ twoUpdates, e.2.Plain := by
    simp only [twoUpdates, List.forall_mem_cons]
    exact ⟨.scalar _, .scalar _, by simp⟩
  have hleaf : ∀ e ∈ twoUpdates, ∃ path s, e.2.toValue.leaf path = some s := by
    simp only [twoUpdates, List.forall_mem_cons]
    exact ⟨⟨[], _, rfl⟩, ⟨[], _, rfl⟩, by simp⟩
  rw [database_merge (fun _ => "") "updateChildValues:" compoundWriteFromDictionary_twoUpdates
    hplain hleaf (by decide) (by decide) .empty]
  decide

end FSnapshotUtilities

end LearnCode.FirebaseDatabase
