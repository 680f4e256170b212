import Mathlib.Data.List.Basic
import Mathlib.Data.List.Infix
import Mathlib.Data.List.Perm.Basic

/-!
# Stores addressed by paths

A tree of leaves is the function that gives the leaf at the end of each path. Writing a
subtree at a path replaces what is at or below the path, and takes away a leaf that stood
above it; removing a path takes away what is at or below it. Operations on paths that lie
apart do not see each other, so a set of operations in which each path is written at most
once, before it is removed, has one result for all orders.

## Main definitions

* `Store κ α` and `Op κ α`: a tree with leaves in `α`, and a write or a removal;
* `applyAll ops s`: the store after the operations of a list, in its order;
* `Apart p q`: neither path continues the other;
* `Orderly ops`: the paths of `ops` are equal or apart, no path gets two contents, and no
  path is written after it is removed.

## Main results

* `applyAll_apply_of_remove_mem` and `applyAll_apply_of_write_mem`: the content of a path after
  an orderly list of operations;
* `applyAll_apply_of_apart`: a path apart from all operations keeps its content;
* `applyAll_eq_of_perm`: two orderly orders of the same operations give the same store.
-/

namespace PathStore

variable {κ α : Type}

/-- A tree of leaves, as the leaf at the end of each path. -/
abbrev Store (κ α : Type) : Type := List κ → Option α

/-- An operation on a store. -/
inductive Op (κ α : Type) : Type where
  /-- Replace the subtree at `path` by `content`. -/
  | write (path : List κ) (content : Store κ α) : Op κ α
  /-- Remove the subtree at `path`. -/
  | remove (path : List κ) : Op κ α

namespace Op

/-- The path an operation acts on. -/
def path : Op κ α → List κ
  | write p _ => p
  | remove p => p

/-- The subtree an operation leaves at its path. -/
def content : Op κ α → Store κ α
  | write _ v => v
  | remove _ => fun _ => none

/-- Carry out an operation. A write also takes away a leaf above its path, since a node
with children holds no leaf of its own. -/
def apply [DecidableEq κ] : Op κ α → Store κ α → Store κ α
  | write p v, s => fun q =>
      if p <+: q then v (q.drop p.length) else if q <+: p then none else s q
  | remove p, s => fun q => if p <+: q then none else s q

@[simp] theorem path_write (p : List κ) (v : Store κ α) : (write p v).path = p := rfl

@[simp] theorem path_remove (p : List κ) : (remove p : Op κ α).path = p := rfl

end Op

/-- Neither path continues the other. -/
def Apart (p q : List κ) : Prop := ¬p <+: q ∧ ¬q <+: p

instance [DecidableEq κ] (p q : List κ) : Decidable (Apart p q) :=
  inferInstanceAs (Decidable (¬p <+: q ∧ ¬q <+: p))

/-- What lies apart from a path lies apart from everything below it. -/
theorem Apart.append_right {p q : List κ} (h : Apart p q) (r : List κ) :
    Apart p (q ++ r) := by
  constructor
  · intro hp
    rcases List.prefix_or_prefix_of_prefix hp (List.prefix_append q r) with hpq | hqp
    · exact h.1 hpq
    · exact h.2 hqp
  · intro hq
    exact h.2 ((List.prefix_append q r).trans hq)

/-- Different paths of one length lie apart. -/
theorem apart_of_length_eq {p q : List κ} (hlen : p.length = q.length) (hne : p ≠ q) :
    Apart p q :=
  ⟨fun h => hne (h.eq_of_length hlen), fun h => hne (h.eq_of_length hlen.symm).symm⟩

variable [DecidableEq κ]

/-- At its own path an operation leaves its content. -/
theorem Op.apply_append (op : Op κ α) (s : Store κ α) (r : List κ) :
    op.apply s (op.path ++ r) = op.content r := by
  cases op <;> simp [Op.apply, Op.path, Op.content]

/-- An operation does not touch a path that lies apart from its own. -/
theorem Op.apply_of_apart {op : Op κ α} {q : List κ} (h : Apart op.path q) (s : Store κ α) :
    op.apply s q = s q := by
  cases op with
  | write p v => simp [Op.apply, show ¬p <+: q from h.1, show ¬q <+: p from h.2]
  | remove p => simp [Op.apply, show ¬p <+: q from h.1]

/-- The store after the operations of a list, in its order. -/
def applyAll (ops : List (Op κ α)) (s : Store κ α) : Store κ α :=
  ops.foldl (fun s op => op.apply s) s

@[simp] theorem applyAll_cons (op : Op κ α) (ops : List (Op κ α)) (s : Store κ α) :
    applyAll (op :: ops) s = applyAll ops (op.apply s) := rfl

theorem applyAll_append (ops ops' : List (Op κ α)) (s : Store κ α) :
    applyAll (ops ++ ops') s = applyAll ops' (applyAll ops s) := by
  simp [applyAll]

/-- A path that lies apart from all operations keeps its content. -/
theorem applyAll_apply_of_apart {ops : List (Op κ α)} {q : List κ}
    (h : ∀ op ∈ ops, Apart op.path q) (s : Store κ α) : applyAll ops s q = s q := by
  induction ops generalizing s with
  | nil => rfl
  | cons op ops ih =>
    rw [applyAll_cons, ih (fun o ho => h o (List.mem_cons_of_mem op ho)),
      Op.apply_of_apart (h op List.mem_cons_self)]

open Classical in
/-- Where no operation acts on the path or above it, the leaf stays until something is written
below. -/
theorem applyAll_apply_of_forall_not_prefix {ops : List (Op κ α)} {q : List κ}
    (h : ∀ op ∈ ops, ¬op.path <+: q) (s : Store κ α) :
    applyAll ops s q = if ∃ p v, Op.write p v ∈ ops ∧ q <+: p then none else s q := by
  induction ops generalizing s with
  | nil => simp [applyAll]
  | cons op ops ih =>
    have hop := h op List.mem_cons_self
    rw [applyAll_cons, ih fun o ho => h o (List.mem_cons_of_mem op ho)]
    cases op with
    | write p v =>
      have hp : ¬p <+: q := hop
      by_cases hqp : q <+: p
      · simp only [Op.apply, hp, hqp, if_true, if_false, ite_self]
        rw [if_pos ⟨p, v, List.mem_cons_self, hqp⟩]
      · simp only [Op.apply, hp, hqp, if_false]
        refine if_congr ?_ rfl rfl
        constructor
        · rintro ⟨p', v', hmem, hp'⟩
          exact ⟨p', v', List.mem_cons_of_mem _ hmem, hp'⟩
        · rintro ⟨p', v', hmem, hp'⟩
          rcases List.mem_cons.mp hmem with heq | hmem
          · cases heq
            exact absurd hp' hqp
          · exact ⟨p', v', hmem, hp'⟩
    | remove p =>
      have hp : ¬p <+: q := hop
      simp only [Op.apply, hp, if_false, List.mem_cons, reduceCtorEq, false_or]

/-- A leaf was there before, or some operation wrote it. -/
theorem exists_write_of_applyAll_eq_some {ops : List (Op κ α)} {s : Store κ α} {q : List κ}
    {x : α} (h : applyAll ops s q = some x) :
    s q = some x ∨ ∃ p v r, Op.write p v ∈ ops ∧ q = p ++ r ∧ v r = some x := by
  induction ops generalizing s with
  | nil => exact .inl h
  | cons op ops ih =>
    rcases ih h with hs | ⟨p, v, r, hmem, hq, hv⟩
    -- the leaf was there after the first operation
    · cases op with
      | write p v =>
        simp only [Op.apply] at hs
        split_ifs at hs with hp
        -- the first operation wrote it, at the path or above
        · obtain ⟨r, rfl⟩ := hp
          exact .inr ⟨p, v, r, List.mem_cons_self, rfl, by simpa using hs⟩
        · exact .inl hs
      | remove p =>
        simp only [Op.apply] at hs
        split_ifs at hs
        exact .inl hs
    · exact .inr ⟨p, v, r, List.mem_cons_of_mem op hmem, hq, hv⟩

/-- Where every operation acts on `p` or apart from it, `p` keeps what the last operation
on it left there. -/
theorem applyAll_append_path {ops : List (Op κ α)} {p : List κ}
    (h : ∀ op ∈ ops, op.path = p ∨ Apart op.path p) (s : Store κ α) (r : List κ) :
    applyAll ops s (p ++ r) =
      ((ops.filter (fun op => op.path = p)).getLast?.elim (s (p ++ r)) (·.content r)) := by
  induction ops generalizing s with
  | nil => rfl
  | cons op ops ih =>
    rw [applyAll_cons, ih (fun o ho => h o (List.mem_cons_of_mem op ho))]
    -- the first operation counts only if no later one acts on `p`
    rcases h op List.mem_cons_self with hp | hp
    · rw [List.filter_cons_of_pos (by simpa using hp), List.getLast?_cons]
      subst hp
      rw [Op.apply_append]
      cases (ops.filter (fun o => o.path = op.path)).getLast? <;> rfl
    · have hne : op.path ≠ p := fun e => hp.1 (e ▸ List.prefix_rfl)
      rw [List.filter_cons_of_neg (by simpa using hne),
        Op.apply_of_apart (hp.append_right r)]

/-- A list of operations whose paths are equal or apart, in which no path gets two contents
and no path is written after it is removed. -/
structure Orderly (ops : List (Op κ α)) : Prop where
  /-- The paths of two operations are equal or apart. -/
  separate : ∀ a ∈ ops, ∀ b ∈ ops, a.path = b.path ∨ Apart a.path b.path
  /-- A path gets one content only. -/
  writeOnce : ∀ p v v', Op.write p v ∈ ops → Op.write p v' ∈ ops → v = v'
  /-- A removal of a path follows the write of it. -/
  writeFirst : ops.Pairwise (fun a b => ∀ p v, a = Op.remove p → b ≠ Op.write p v)

omit [DecidableEq κ] in
/-- Operations on paths that lie apart are orderly in every order. -/
theorem Orderly.of_pairwise_apart {ops : List (Op κ α)} (h : (ops.map Op.path).Pairwise Apart) :
    Orderly ops := by
  rw [List.pairwise_map] at h
  have hsame : ∀ ⦃a⦄, a ∈ ops → ∀ ⦃b⦄, b ∈ ops → a = b ∨ Apart a.path b.path :=
    List.Pairwise.forall_of_forall_of_flip (fun _ _ => .inl rfl) (h.imp .inr)
      (h.imp fun happart => .inr ⟨happart.2, happart.1⟩)
  refine ⟨fun a ha b hb => (hsame ha hb).imp_left (congrArg Op.path), fun p v v' hv hv' => ?_,
    h.imp fun {a b} happart p v ha hb => ?_⟩
  · rcases hsame hv hv' with heq | happart
    · exact (Op.write.inj heq).2
    · exact absurd List.prefix_rfl happart.1
  · rw [ha, hb] at happart
    exact happart.1 List.prefix_rfl

/-- Once a path is removed, the last operation on it is a removal. -/
private theorem getLast?_filter_eq_remove {ops : List (Op κ α)} (h : Orderly ops)
    {p : List κ} (hp : Op.remove p ∈ ops) :
    (ops.filter (fun op => op.path = p)).getLast? = some (Op.remove p) := by
  -- of the operations on the path the removal is one, so there is a last one
  have hmem : (Op.remove p : Op κ α) ∈ ops.filter (fun op => op.path = p) := by
    simpa using hp
  have hpair := h.writeFirst.filter (fun op => decide (op.path = p))
  obtain ⟨front, last, hsplit⟩ := List.eq_nil_or_concat _ |>.resolve_left
    (List.ne_nil_of_mem hmem)
  rw [List.concat_eq_append] at hsplit
  have hpath : last.path = p := by
    have : last ∈ ops.filter (fun op => op.path = p) := by simp [hsplit]
    simpa using (List.mem_filter.mp this).2
  rw [hsplit, List.getLast?_concat]
  cases last with
  | remove p' => rw [← hpath]; rfl
  | write p' v =>
    -- a write in last place would follow the removal
    exfalso
    obtain rfl : p' = p := hpath
    rw [hsplit, List.mem_append, List.mem_singleton] at hmem
    rw [hsplit, List.pairwise_append] at hpair
    rcases hmem with hmem | hmem
    · exact hpair.2.2 _ hmem _ List.mem_cons_self p' v rfl rfl
    · cases hmem

/-- A removed path is empty. -/
theorem applyAll_apply_of_remove_mem {ops : List (Op κ α)} (h : Orderly ops) {p : List κ}
    (hp : Op.remove p ∈ ops) (s : Store κ α) (r : List κ) :
    applyAll ops s (p ++ r) = none := by
  rw [applyAll_append_path (p := p) (fun op ho => h.separate op ho _ hp),
    getLast?_filter_eq_remove h hp]
  rfl

/-- A path that is written and not removed holds what was written. -/
theorem applyAll_apply_of_write_mem {ops : List (Op κ α)} (h : Orderly ops) {p : List κ}
    {v : Store κ α} (hp : Op.write p v ∈ ops) (hrem : Op.remove p ∉ ops) (s : Store κ α)
    (r : List κ) : applyAll ops s (p ++ r) = v r := by
  rw [applyAll_append_path (p := p) (fun op ho => h.separate op ho _ hp)]
  have hmem : (Op.write p v) ∈ ops.filter (fun op => op.path = p) := by simpa using hp
  obtain ⟨last, hlast⟩ := Option.ne_none_iff_exists'.mp
    (fun e => List.ne_nil_of_mem hmem (List.getLast?_eq_none_iff.mp e))
  obtain ⟨hmem', hpath⟩ := List.mem_filter.mp (List.mem_of_getLast? hlast)
  replace hpath : last.path = p := by simpa using hpath
  rw [hlast]
  cases last with
  -- the last operation on the path is no removal, so it is the one write
  | remove p' => exact absurd (hpath ▸ hmem') hrem
  | write p' v' =>
    obtain rfl : p' = p := hpath
    exact congrFun (h.writeOnce _ _ _ hmem' hp) r

/-- A path that is above a written path, and below none, holds no leaf. -/
private theorem applyAll_apply_above_write {ops : List (Op κ α)} {q : List κ}
    (hbelow : ∀ op ∈ ops, ¬op.path <+: q)
    (habove : ∃ p v, Op.write p v ∈ ops ∧ q <+: p) (s : Store κ α) :
    applyAll ops s q = none := by
  -- a path that holds no leaf gets one only by an operation at it or above
  have hstay : ∀ ops : List (Op κ α), (∀ op ∈ ops, ¬op.path <+: q) →
      ∀ s : Store κ α, s q = none → applyAll ops s q = none := by
    intro ops hbelow
    induction ops with
    | nil => exact fun s hs => hs
    | cons op ops ih =>
      intro s hs
      refine ih (fun o ho => hbelow o (List.mem_cons_of_mem op ho)) _ ?_
      have hop : ¬op.path <+: q := hbelow op List.mem_cons_self
      cases op with
      | write p v => simp [Op.apply, hs, show ¬p <+: q from hop]
      | remove p => simp [Op.apply, hs]
  obtain ⟨p, v, hmem, hq⟩ := habove
  obtain ⟨front, back, rfl⟩ := List.append_of_mem hmem
  rw [applyAll_append, applyAll_cons]
  -- the write below the path takes its leaf
  refine hstay back (fun o ho => hbelow o (by simp [ho])) _ ?_
  have hp : ¬p <+: q := hbelow (Op.write p v) (by simp)
  simp [Op.apply, hp, hq]

/-- A path that is below no operation, and above no write, keeps its content. -/
private theorem applyAll_apply_untouched {ops : List (Op κ α)} {q : List κ}
    (hbelow : ∀ op ∈ ops, ¬op.path <+: q)
    (habove : ¬∃ p v, Op.write p v ∈ ops ∧ q <+: p) (s : Store κ α) :
    applyAll ops s q = s q := by
  induction ops generalizing s with
  | nil => rfl
  | cons op ops ih =>
    rw [applyAll_cons, ih (fun o ho => hbelow o (List.mem_cons_of_mem op ho))
      (fun ⟨p, v, hm, hq⟩ => habove ⟨p, v, List.mem_cons_of_mem op hm, hq⟩)]
    have hop : ¬op.path <+: q := hbelow op List.mem_cons_self
    cases op with
    | write p v =>
      -- no write is below the path either
      have hq : ¬q <+: p := fun hq => habove ⟨p, v, List.mem_cons_self, hq⟩
      simp [Op.apply, hq, show ¬p <+: q from hop]
    | remove p => simp [Op.apply, show ¬p <+: q from hop]

/-- Two orderly orders of the same operations give the same store. -/
theorem applyAll_eq_of_perm {ops ops' : List (Op κ α)} (h : Orderly ops) (h' : Orderly ops')
    (hperm : ops.Perm ops') (s : Store κ α) : applyAll ops s = applyAll ops' s := by
  funext q
  by_cases hbelow : ∃ op ∈ ops, op.path <+: q
  · -- an operation acts on or above the path: its removal or its write decides
    obtain ⟨op, hop, r, rfl⟩ := hbelow
    by_cases hrem : Op.remove op.path ∈ ops
    · rw [applyAll_apply_of_remove_mem h hrem,
        applyAll_apply_of_remove_mem h' (hperm.mem_iff.mp hrem)]
    · cases op with
      | remove p => exact absurd hop hrem
      | write p v =>
        rw [Op.path_write] at hrem ⊢
        rw [applyAll_apply_of_write_mem h hop hrem,
          applyAll_apply_of_write_mem h' (hperm.mem_iff.mp hop)
            (fun hm => hrem (hperm.mem_iff.mpr hm))]
  · have hb : ∀ op ∈ ops, ¬op.path <+: q := fun op ho hq => hbelow ⟨op, ho, hq⟩
    have hb' : ∀ op ∈ ops', ¬op.path <+: q := fun op ho => hb op (hperm.mem_iff.mpr ho)
    -- otherwise the path can only lose its leaf, to a write below it
    by_cases habove : ∃ p v, Op.write p v ∈ ops ∧ q <+: p
    · rw [applyAll_apply_above_write hb habove,
        applyAll_apply_above_write hb' (by simpa only [hperm.mem_iff] using habove)]
    · rw [applyAll_apply_untouched hb habove,
        applyAll_apply_untouched hb' (by simpa only [hperm.mem_iff] using habove)]

end PathStore
