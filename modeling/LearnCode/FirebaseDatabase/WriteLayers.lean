import LearnCode.FirebaseDatabase.PendingWrites

/-!
# Writes that are taken back

A compound write made by a run of writes is changed by taking some of them out of the run only at
or below their paths. So nothing changes when a later write covers them, and when no other write
is at, above or below their paths it is enough to take the writes away there.

## Main definitions

* `AgreeOutside P t t'`: two write trees have the same writes outside a path.

## Main results

* `AgreeOutside.addWrite`: the trees still agree after another write;
* `AgreeOutside.addWrite_eq`: they are equal after a write at the path or above it;
* `addAll_eq_of_shadowed`: writes that are covered later may be left out;
* `foldl_removeWriteAtPath_addAll`: writes apart from all others may be taken away.
-/

namespace LearnCode.FirebaseDatabase.FCompoundWrite

open ChildKey PathStore

variable {α : Type} {cmp : ChildKey → ChildKey → Ordering}

/-- Two trees have the same writes outside a path. -/
def AgreeOutside (cmp : ChildKey → ChildKey → Ordering) (P : List ChildKey)
    (t t' : FImmutableTree ChildKey (FNode α)) : Prop :=
  ∀ q, ¬P <+: q → t.valueAtPath cmp q = t'.valueAtPath cmp q

section

variable {t t' : FImmutableTree ChildKey (FNode α)} {P p : List ChildKey} {c : FNode α}

/-- The values below a key of a branch. -/
theorem valueAtPath_branch (children : List (ChildKey × FImmutableTree ChildKey (FNode α)))
    (k : ChildKey) (q : List ChildKey) :
    (FImmutableTree.node none children).valueAtPath cmp (k :: q) =
      ((SortedDict.get cmp k children).getD .empty).valueAtPath cmp q := by
  rw [FImmutableTree.valueAtPath_getD]
  exact FImmutableTree.valueAtPath_cons k q _

/-- Two trees that agree outside a path agree in the child on the path. -/
theorem AgreeOutside.get_getD {k : ChildKey}
    {children children' : List (ChildKey × FImmutableTree ChildKey (FNode α))}
    (h : AgreeOutside cmp (k :: P) (.node none children) (.node none children')) :
    AgreeOutside cmp P ((SortedDict.get cmp k children).getD .empty)
      ((SortedDict.get cmp k children').getD .empty) := by
  intro q hq
  rw [← valueAtPath_branch, ← valueAtPath_branch]
  exact h (k :: q) fun hpre => hq (List.cons_prefix_cons.mp hpre).2

/-- Two trees that agree outside a path are both branches, or they are the same write. -/
theorem AgreeOutside.cases_tree {k : ChildKey} (ht : WriteTree cmp t) (ht' : WriteTree cmp t')
    (h : AgreeOutside cmp (k :: P) t t') :
    t = t' ∨ ∃ children children', t = .node none children ∧ t' = .node none children' := by
  have hroot : t.value = t'.value := by
    have h := h [] (by simp)
    rwa [FImmutableTree.valueAtPath_nil, FImmutableTree.valueAtPath_nil] at h
  cases ht with
  | write =>
    cases ht' with
    | write => exact .inl (by rw [Option.some.inj hroot])
    | branch => cases hroot
  | branch =>
    cases ht' with
    | write => cases hroot
    | branch => exact .inr ⟨_, _, rfl, rfl⟩

variable [Std.TransCmp cmp] [Std.LawfulEqCmp cmp]

/-- The values below a key of a branch after another write. -/
theorem valueAtPath_addWrite_branch
    {children : List (ChildKey × FImmutableTree ChildKey (FNode α))}
    (ht : WriteTree cmp (.node none children)) (k : ChildKey) (p : List ChildKey) (c : FNode α)
    (i : ChildKey) (q : List ChildKey) :
    ((FCompoundWrite.mk (.node none children)).addWrite cmp c (k :: p)).writeTree.valueAtPath cmp
        (i :: q) =
      if i = k then
        ((FCompoundWrite.mk ((SortedDict.get cmp k children).getD .empty)).addWrite cmp c
          p).writeTree.valueAtPath cmp q
      else (FImmutableTree.node none children).valueAtPath cmp (i :: q) := by
  rw [addWrite_branch ht, valueAtPath_branch, SortedDict.get_insert_of_lawful]
  split
  · rfl
  · rw [valueAtPath_branch]

/-- After another write two trees still agree outside a path. -/
theorem AgreeOutside.addWrite (ht : WriteTree cmp t) (ht' : WriteTree cmp t')
    (h : AgreeOutside cmp P t t') (c : FNode α) (p : List ChildKey) :
    AgreeOutside cmp P ((FCompoundWrite.mk t).addWrite cmp c p).writeTree
      ((FCompoundWrite.mk t').addWrite cmp c p).writeTree := by
  induction P generalizing t t' p with
  | nil => exact fun q hq => absurd List.nil_prefix hq
  | cons k P ih =>
    rcases h.cases_tree ht ht' with rfl | ⟨children, children', rfl, rfl⟩
    · exact fun _ _ => rfl
    · cases p with
      | nil => exact fun _ _ => rfl
      | cons j p =>
        intro q hq
        cases q with
        | nil => rw [addWrite_branch ht, addWrite_branch ht']; rfl
        | cons i q =>
          rw [valueAtPath_addWrite_branch ht, valueAtPath_addWrite_branch ht', h _ hq]
          split
          · rename_i hij
            subst hij
            by_cases hik : i = k
            · -- the write goes down the path
              subst hik
              exact ih (ht.get_getD i) (ht'.get_getD i) h.get_getD p q
                fun hpre => hq (List.cons_prefix_cons.mpr ⟨rfl, hpre⟩)
            · -- apart from the path the children are the same
              have hchild : (SortedDict.get cmp i children).getD .empty =
                  (SortedDict.get cmp i children').getD .empty := by
                refine (ht.get_getD i).pruned.eq_of_valueAtPath_eq (ht'.get_getD i).pruned
                  fun r => ?_
                rw [← valueAtPath_branch, ← valueAtPath_branch]
                exact h _ fun hpre => hik (List.cons_prefix_cons.mp hpre).1.symm
              rw [hchild]
          · rfl

/-- After a write at the path or above it two trees that agree outside the path are equal. -/
theorem AgreeOutside.addWrite_eq (ht : WriteTree cmp t) (ht' : WriteTree cmp t')
    (h : AgreeOutside cmp P t t') (hc : c.Writable p) (hp : p <+: P) :
    (FCompoundWrite.mk t).addWrite cmp c p = (FCompoundWrite.mk t').addWrite cmp c p := by
  induction p generalizing t t' P with
  | nil => rfl
  | cons j p ih =>
    obtain ⟨P, rfl⟩ : ∃ P', P = j :: P' := by
      obtain ⟨r, rfl⟩ := hp
      exact ⟨p ++ r, rfl⟩
    have hp := (List.cons_prefix_cons.mp hp).2
    rcases h.cases_tree ht ht' with rfl | ⟨children, children', rfl, rfl⟩
    · rfl
    · have hchild : c.Writable p := by
        rw [FNode.Writable] at hc
        split at hc
        · obtain ⟨rfl, hc⟩ := hc
          exact hc.wellFormed
        · exact hc
      have hnew := ht.addWrite hc
      have hnew' := ht'.addWrite hc
      -- on the path the write makes the children equal, and elsewhere they agreed before
      have heq : ((FCompoundWrite.mk (.node none children)).addWrite cmp c (j :: p)).writeTree =
          ((FCompoundWrite.mk (.node none children')).addWrite cmp c (j :: p)).writeTree := by
        refine hnew.pruned.eq_of_valueAtPath_eq hnew'.pruned fun q => ?_
        cases q with
        | nil => rw [addWrite_branch ht, addWrite_branch ht']; rfl
        | cons i q =>
          rw [valueAtPath_addWrite_branch ht, valueAtPath_addWrite_branch ht']
          split
          · rw [ih (ht.get_getD j) (ht'.get_getD j) h.get_getD hchild hp]
          · rename_i hij
            exact h _ fun hpre => hij (List.cons_prefix_cons.mp hpre).1.symm
      exact congrArg FCompoundWrite.mk heq

/-- What is written after another write was written before, or is at the path or below it. -/
theorem valueAtPath_addWrite_ne_none (ht : WriteTree cmp t) {q : List ChildKey}
    (h : ((FCompoundWrite.mk t).addWrite cmp c p).writeTree.valueAtPath cmp q ≠ none) :
    t.valueAtPath cmp q ≠ none ∨ p <+: q := by
  rw [valueAtPath_addWrite ht] at h
  cases hfind : t.findRootMostValueAndPath cmp p with
  | some rootMost =>
    rw [hfind] at h
    simp only at h
    split at h
    · -- the write above was there before
      rename_i hq
      rw [hq, (FImmutableTree.of_findRootMostMatchingPath_eq_some _ hfind).1]
      exact .inl (by simp)
    · exact .inl h
  | none =>
    rw [hfind] at h
    simp only at h
    split at h
    · rename_i hq
      exact .inr (by rw [hq])
    · split at h
      · exact absurd rfl h
      · exact .inl h

/-- A write below a path above which nothing is written changes nothing outside the path. -/
theorem agreeOutside_addWrite (ht : WriteTree cmp t) (hp : P <+: p)
    (hnone : ∀ r, r <+: P → r ≠ P → t.valueAtPath cmp r = none) :
    AgreeOutside cmp P ((FCompoundWrite.mk t).addWrite cmp c p).writeTree t := by
  intro q hq
  rw [valueAtPath_addWrite ht]
  cases hfind : t.findRootMostValueAndPath cmp p with
  | some rootMost =>
    have hvalue := (FImmutableTree.of_findRootMostMatchingPath_eq_some _ hfind).1
    have hP : P <+: rootMost.path := by
      rcases List.prefix_or_prefix_of_prefix hp rootMost.isPrefix with h | h
      · exact h
      · by_contra hne
        rw [hnone _ h fun heq => hne (by rw [heq])] at hvalue
        cases hvalue
    exact if_neg fun heq : q = rootMost.path => hq (heq ▸ hP)
  | none =>
    simp only
    rw [if_neg (fun heq : q = p => hq (heq ▸ hp)), if_neg fun h => hq (hp.trans h)]

end

/-! ## Runs of writes -/

section Runs

variable [Std.TransCmp cmp] [Std.LawfulEqCmp cmp]
variable {us vs ws : List (List ChildKey × FNode α)} {P : List ChildKey}

/-- What is written is at the path of a write or below it. -/
theorem exists_prefix_of_valueAtPath_addAll (hus : AllWritable us) {q : List ChildKey}
    (h : (addAll cmp us emptyWrite).writeTree.valueAtPath cmp q ≠ none) :
    ∃ u ∈ us, u.1 <+: q := by
  induction us using List.reverseRecOn with
  | nil => exact absurd (FImmutableTree.valueAtPath_empty q) h
  | append_singleton us u ih =>
    obtain ⟨hus, -⟩ := allWritable_append.mp hus
    rw [addAll_append] at h
    rcases valueAtPath_addWrite_ne_none (WriteTree.addAll hus writeTree_emptyWrite) h with h | h
    · obtain ⟨u', hu', hpre⟩ := ih hus h
      exact ⟨u', List.mem_append_left _ hu', hpre⟩
    · exact ⟨u, by simp, h⟩

/-- Writes below a path change nothing outside it when nothing was written above it. -/
theorem agreeOutside_addAll (hus : AllWritable us) (hws : AllWritable ws)
    (habove : ∀ u ∈ us, u.1 <+: P → u.1 = P) (hbelow : ∀ w ∈ ws, P <+: w.1) :
    AgreeOutside cmp P (addAll cmp (us ++ ws) emptyWrite).writeTree
      (addAll cmp us emptyWrite).writeTree := by
  induction ws using List.reverseRecOn with
  | nil => rw [List.append_nil]; exact fun _ _ => rfl
  | append_singleton ws w ih =>
    obtain ⟨hws, hw⟩ := allWritable_append.mp hws
    have hall : AllWritable (us ++ ws) := allWritable_append.mpr ⟨hus, hws⟩
    rw [← List.append_assoc, addAll_append]
    refine fun q hq => (agreeOutside_addWrite (WriteTree.addAll hall writeTree_emptyWrite)
      (hbelow w (by simp)) (fun r hr hne => ?_) q hq).trans
        (ih hws (fun w' hw' => hbelow w' (List.mem_append_left _ hw')) q hq)
    -- a value strictly above the path would come from a write there, and there is none
    by_contra hvalue
    obtain ⟨u, hu, hur⟩ := exists_prefix_of_valueAtPath_addAll hall hvalue
    rcases List.mem_append.mp hu with hu | hu
    · have heq := habove u hu (hur.trans hr)
      exact hne (hr.eq_of_length_le (heq ▸ hur.length_le))
    · have hP := hbelow u (List.mem_append_left _ hu)
      exact hne (hr.eq_of_length_le (hP.trans hur).length_le)

/-- Two trees that agree outside a path still do after writes. -/
theorem AgreeOutside.addAll {w w' : FCompoundWrite α} (hw : WriteTree cmp w.writeTree)
    (hw' : WriteTree cmp w'.writeTree) (h : AgreeOutside cmp P w.writeTree w'.writeTree)
    (hvs : AllWritable vs) :
    AgreeOutside cmp P (addAll cmp vs w).writeTree (addAll cmp vs w').writeTree := by
  induction vs generalizing w w' with
  | nil => exact h
  | cons v vs ih =>
    obtain ⟨hv, hvs⟩ := allWritable_cons.mp hvs
    exact ih (hw.addWrite hv) (hw'.addWrite hv) (h.addWrite hw hw' v.2 v.1) hvs

/-- Two trees that agree outside a path are equal after writes one of which is at the path or above
it. -/
theorem AgreeOutside.addAll_eq {w w' : FCompoundWrite α} (hw : WriteTree cmp w.writeTree)
    (hw' : WriteTree cmp w'.writeTree) (h : AgreeOutside cmp P w.writeTree w'.writeTree)
    (hvs : AllWritable vs) (hshadow : ∃ v ∈ vs, v.1 <+: P) :
    FCompoundWrite.addAll cmp vs w = FCompoundWrite.addAll cmp vs w' := by
  induction vs generalizing w w' with
  | nil => obtain ⟨v, hv, -⟩ := hshadow; cases hv
  | cons v vs ih =>
    obtain ⟨hv, hvs⟩ := allWritable_cons.mp hvs
    rw [addAll_cons, addAll_cons]
    by_cases hvP : v.1 <+: P
    · rw [show w.addWrite cmp v.2 v.1 = w'.addWrite cmp v.2 v.1 from h.addWrite_eq hw hw' hv hvP]
    · obtain ⟨v', hv', hpre⟩ := hshadow
      have hmem := (List.mem_cons.mp hv').resolve_left fun heq => hvP (heq ▸ hpre)
      exact ih (hw.addWrite hv) (hw'.addWrite hv) (h.addWrite hw hw' v.2 v.1) hvs
        ⟨v', hmem, hpre⟩

/-- Writes below a path may be left out when a later write is at the path or above it. -/
theorem addAll_eq_of_shadowed (hus : AllWritable us) (hws : AllWritable ws)
    (hvs : AllWritable vs) (habove : ∀ u ∈ us, u.1 <+: P → u.1 = P)
    (hbelow : ∀ w ∈ ws, P <+: w.1) (hshadow : ∃ v ∈ vs, v.1 <+: P) :
    addAll cmp (us ++ ws ++ vs) emptyWrite = addAll cmp (us ++ vs) emptyWrite := by
  have huw := WriteTree.addAll (allWritable_append.mpr ⟨hus, hws⟩)
    (writeTree_emptyWrite : WriteTree cmp _)
  rw [addAll_append (us ++ ws), addAll_append us vs]
  exact (agreeOutside_addAll hus hws habove hbelow).addAll_eq huw
    (WriteTree.addAll hus writeTree_emptyWrite) hvs hshadow

omit [Std.TransCmp cmp] [Std.LawfulEqCmp cmp] in
/-- Taking away the writes at a path is putting the empty tree there. -/
theorem writeTree_removeWriteAtPath (w : FCompoundWrite α) (p : List ChildKey) :
    (w.removeWriteAtPath cmp p).writeTree = w.writeTree.setTree cmp .empty p := by
  cases p <;> rfl

/-- What is left when the writes at some paths are taken away. -/
theorem foldl_removeWriteAtPath (ws : List (List ChildKey × FNode α)) {w : FCompoundWrite α}
    (hw : w.writeTree.Pruned cmp) :
    (ws.foldl (fun w u => w.removeWriteAtPath cmp u.1) w).writeTree.Pruned cmp ∧
      ∀ q, (ws.foldl (fun w u => w.removeWriteAtPath cmp u.1) w).writeTree.valueAtPath cmp q =
        if ∃ u ∈ ws, u.1 <+: q then none else w.writeTree.valueAtPath cmp q := by
  induction ws generalizing w with
  | nil => exact ⟨hw, fun q => by simp⟩
  | cons u ws ih =>
    have hpruned : (w.removeWriteAtPath cmp u.1).writeTree.Pruned cmp := by
      rw [writeTree_removeWriteAtPath]
      exact hw.setTree FImmutableTree.pruned_empty u.1
    obtain ⟨hfold, hvalues⟩ := ih hpruned
    refine ⟨hfold, fun q => ?_⟩
    rw [List.foldl_cons, hvalues q, writeTree_removeWriteAtPath,
      FImmutableTree.valueAtPath_setTree, FImmutableTree.valueAtPath_empty]
    -- what is at or below the first path is gone whatever the other paths are
    by_cases hu : u.1 <+: q
    · rw [if_pos hu, ite_self, if_pos ⟨u, List.mem_cons_self, hu⟩]
    · rw [if_neg hu]
      refine if_congr ?_ rfl rfl
      simp [hu]

/-- Writes apart from all others may be taken away at their paths. -/
theorem foldl_removeWriteAtPath_addAll (hus : AllWritable us) (hws : AllWritable ws)
    (hvs : AllWritable vs) (hapart : ∀ u ∈ us ++ vs, Apart u.1 P) (hbelow : ∀ w ∈ ws, P <+: w.1) :
    ws.foldl (fun w u => w.removeWriteAtPath cmp u.1) (addAll cmp (us ++ ws ++ vs) emptyWrite) =
      addAll cmp (us ++ vs) emptyWrite := by
  have huw := allWritable_append.mpr ⟨hus, hws⟩
  have huv := allWritable_append.mpr ⟨hus, hvs⟩
  have hall := allWritable_append.mpr ⟨huw, hvs⟩
  have hwith : WriteTree cmp (addAll cmp (us ++ ws ++ vs) emptyWrite).writeTree :=
    WriteTree.addAll hall writeTree_emptyWrite
  have hwithout : WriteTree cmp (addAll cmp (us ++ vs) emptyWrite).writeTree :=
    WriteTree.addAll huv writeTree_emptyWrite
  obtain ⟨hpruned, hvalues⟩ := foldl_removeWriteAtPath ws hwith.pruned
  -- neither tree has another write at the path or below it
  have hnone : ∀ q, P <+: q → ∀ u ∈ us ++ vs, ¬u.1 <+: q := by
    intro q hP u hu huq
    rcases List.prefix_or_prefix_of_prefix hP huq with h | h
    · exact (hapart u hu).2 h
    · exact (hapart u hu).1 h
  have hagree : AgreeOutside cmp P (addAll cmp (us ++ ws ++ vs) emptyWrite).writeTree
      (addAll cmp (us ++ vs) emptyWrite).writeTree := by
    have hbefore : AgreeOutside cmp P (addAll cmp (us ++ ws) emptyWrite).writeTree
        (addAll cmp us emptyWrite).writeTree :=
      agreeOutside_addAll hus hws
        (fun u hu h => absurd h (hapart u (List.mem_append_left _ hu)).1) hbelow
    rw [addAll_append (us ++ ws), addAll_append us vs]
    exact hbefore.addAll (WriteTree.addAll huw writeTree_emptyWrite)
      (WriteTree.addAll hus writeTree_emptyWrite) hvs
  have htree := hpruned.eq_of_valueAtPath_eq hwithout.pruned fun q => by
    rw [hvalues q]
    by_cases hP : P <+: q
    · have hwithoutNone :
          (addAll cmp (us ++ vs) emptyWrite).writeTree.valueAtPath cmp q = none := by
        by_contra h
        obtain ⟨u, hu, huq⟩ := exists_prefix_of_valueAtPath_addAll huv h
        exact hnone q hP u hu huq
      rw [hwithoutNone]
      by_cases hw : ∃ w ∈ ws, w.1 <+: q
      · rw [if_pos hw]
      · rw [if_neg hw]
        by_contra h
        obtain ⟨u, hu, huq⟩ := exists_prefix_of_valueAtPath_addAll hall h
        rcases List.mem_append.mp hu with hu | hu
        · rcases List.mem_append.mp hu with hu | hu
          · exact hnone q hP u (List.mem_append_left _ hu) huq
          · exact hw ⟨u, hu, huq⟩
        · exact hnone q hP u (List.mem_append_right _ hu) huq
    · rw [if_neg (fun ⟨w, hw, hwq⟩ => hP ((hbelow w hw).trans hwq))]
      exact hagree q hP
  exact congrArg FCompoundWrite.mk htree

/-- Nothing is left where writes at a path or below it are taken away at the path. -/
theorem isEmpty_removeWriteAtPath_addAll (hus : AllWritable us) (hbelow : ∀ u ∈ us, P <+: u.1) :
    ((addAll cmp us emptyWrite).removeWriteAtPath cmp P).isEmpty = true := by
  have htree : WriteTree cmp (addAll cmp us emptyWrite).writeTree :=
    WriteTree.addAll hus writeTree_emptyWrite
  have hpruned := htree.pruned.setTree FImmutableTree.pruned_empty P
  rw [FCompoundWrite.isEmpty, writeTree_removeWriteAtPath]
  refine hpruned.isEmpty_iff.mpr fun q => ?_
  rw [FImmutableTree.valueAtPath_setTree, FImmutableTree.valueAtPath_empty]
  split_ifs with hq
  · rfl
  · by_contra hvalue
    obtain ⟨u, hu, huq⟩ := exists_prefix_of_valueAtPath_addAll hus hvalue
    exact hq ((hbelow u hu).trans huq)

end Runs

end LearnCode.FirebaseDatabase.FCompoundWrite
