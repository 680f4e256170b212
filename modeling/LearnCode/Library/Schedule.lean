import Mathlib.Algebra.Group.Subgroup.ZPowers.Basic
import Mathlib.Algebra.Order.Field.Basic
import Mathlib.Algebra.Order.Floor.Semiring
import Mathlib.Data.Int.Cast.Lemmas
import Mathlib.Data.Int.GCD

/-!
# Frames shown at a uniform rate

A schedule keeps each of a list of frames on screen for a delay of its own. A player shows a list
of entries one after another, each for the same step. It keeps the schedule when every frame is on
screen exactly in its own interval: expanding each frame to one entry for each step of its delay
does this for every common divisor of the delays, and no step longer than the greatest one does it.

## Main definitions

* `expand`: each frame repeated as often as its count says;
* `slots`: the same for the indices of the frames;
* `start`: the time at which a frame begins, the sum of the delays before it;
* `shown`: the entry on screen at a time;
* `Exact`: a uniform sequence of indices keeps the delays;
* `commonStep`: the greatest common divisor of the delays.

## Main results

* `getElem?_slots`: the entries of a frame are those from its start to the next frame's;
* `exact_slots`: expanding by a common divisor keeps the delays;
* `Exact.step_le`: no longer step than the greatest common divisor keeps the delays.
-/

namespace Schedule

variable {α : Type*}

/-- Each frame, repeated as often as its count says. -/
def expand (frames : List (α × ℕ)) : List α :=
  frames.flatMap fun frame => List.replicate frame.2 frame.1

/-- For each entry of an expansion by these counts, the index of the frame it shows. -/
def slots (counts : List ℕ) : List ℕ := expand (counts.zipIdx.map Prod.swap)

/-- The time at which frame `i` begins: the sum of the delays before it. -/
def start (delays : List ℕ) (i : ℕ) : ℕ := (delays.take i).sum

/-- The greatest common divisor of the delays. -/
def commonStep (delays : List ℕ) : ℕ := delays.foldr Nat.gcd 0

/-! ## Positions -/

@[simp] theorem start_zero (delays : List ℕ) : start delays 0 = 0 := by simp [start]

@[simp] theorem start_cons_succ (d : ℕ) (delays : List ℕ) (i : ℕ) :
    start (d :: delays) (i + 1) = d + start delays i := by simp [start]

/-- A frame ends its delay after it begins. -/
theorem start_succ {delays : List ℕ} {i d : ℕ} (h : delays[i]? = some d) :
    start delays (i + 1) = start delays i + d := by
  simp [start, List.take_add_one, h]

/-- After the last frame nothing begins. -/
theorem start_succ_of_length_le {delays : List ℕ} {i : ℕ} (h : delays.length ≤ i) :
    start delays (i + 1) = start delays i := by
  rw [start, start, List.take_of_length_le h, List.take_of_length_le (Nat.le_succ_of_le h)]

/-- The frames begin one after another. -/
theorem start_le_succ (delays : List ℕ) (i : ℕ) : start delays i ≤ start delays (i + 1) := by
  rcases lt_or_ge i delays.length with hi | hi
  · rw [start_succ (List.getElem?_eq_getElem hi)]
    exact Nat.le_add_right _ _
  · rw [start_succ_of_length_le hi]

@[simp] theorem expand_append (frames frames' : List (α × ℕ)) :
    expand (frames ++ frames') = expand frames ++ expand frames' := by simp [expand]

@[simp] theorem expand_singleton (a : α) (count : ℕ) :
    expand [(a, count)] = List.replicate count a := by simp [expand]

/-- An expansion has as many entries as the counts add up to. -/
theorem length_expand (frames : List (α × ℕ)) :
    (expand frames).length = (frames.map Prod.snd).sum := by
  simp [expand, List.length_flatMap]

/-- Every position below the sum of the counts belongs to a frame. -/
theorem exists_start_le {counts : List ℕ} {k : ℕ} (h : k < counts.sum) :
    ∃ i, start counts i ≤ k ∧ k < start counts (i + 1) := by
  induction counts generalizing k with
  | nil => simp at h
  | cons c counts ih =>
    by_cases hk : k < c
    · exact ⟨0, by simp, by simpa using hk⟩
    · rw [List.sum_cons] at h
      obtain ⟨i, hle, hlt⟩ := ih (k := k - c) (by omega)
      refine ⟨i + 1, ?_, ?_⟩ <;> rw [start_cons_succ] <;> omega

/-- The entries of a frame are those from its start to the next frame's. -/
theorem getElem?_expand (frames : List (α × ℕ)) {i k : ℕ}
    (hle : start (frames.map Prod.snd) i ≤ k) (hlt : k < start (frames.map Prod.snd) (i + 1)) :
    (expand frames)[k]? = frames[i]?.map Prod.fst := by
  induction frames generalizing i k with
  | nil => simp [start] at hlt
  | cons frame frames ih =>
    have hcons : expand (frame :: frames) = List.replicate frame.2 frame.1 ++ expand frames := rfl
    rw [List.map_cons, start_cons_succ] at hlt
    cases i with
    | zero =>
      have hk : k < frame.2 := by simpa using hlt
      rw [hcons, List.getElem?_append_left (by simpa using hk)]
      simp [hk]
    | succ i =>
      -- the position is counted from the end of the first frame
      rw [List.map_cons, start_cons_succ] at hle
      rw [hcons, List.getElem?_append_right (by simp; omega), List.length_replicate,
        ih (i := i) (by omega) (by omega), List.getElem?_cons_succ]

/-- The counts with their indices. -/
theorem map_snd_zipIdx_swap (counts : List ℕ) :
    (counts.zipIdx.map Prod.swap).map Prod.snd = counts := by
  rw [List.map_map]
  exact List.zipIdx_map_fst 0 counts

/-- An entry shows frame `i` exactly from the start of that frame to the start of the next. -/
theorem getElem?_slots (counts : List ℕ) (i k : ℕ) :
    (slots counts)[k]? = some i ↔ start counts i ≤ k ∧ k < start counts (i + 1) := by
  have hcounts := map_snd_zipIdx_swap counts
  have hslot : ∀ i, start counts i ≤ k → k < start counts (i + 1) →
      (slots counts)[k]? = some i := by
    intro i hle hlt
    have hi : i < counts.length := by
      by_contra hi
      rw [start_succ_of_length_le (not_lt.mp hi)] at hlt
      omega
    rw [slots, getElem?_expand (i := i) _ (by rwa [hcounts]) (by rwa [hcounts])]
    simp [hi]
  constructor
  · intro h
    -- the position belongs to some frame, and shows that one
    have hk : k < counts.sum := by
      have hlen := (List.getElem?_eq_some_iff.mp h).1
      rwa [slots, length_expand, hcounts] at hlen
    obtain ⟨j, hle, hlt⟩ := exists_start_le hk
    have hij : j = i := Option.some.inj ((hslot j hle hlt).symm.trans h)
    exact hij ▸ ⟨hle, hlt⟩
  · exact fun h => hslot i h.1 h.2

/-- An entry of an expansion is the frame whose index is in its slot. -/
theorem getElem?_expand_eq (frames : List (α × ℕ)) (k : ℕ) :
    (expand frames)[k]? =
      (slots (frames.map Prod.snd))[k]?.bind fun i => frames[i]?.map Prod.fst := by
  cases hslot : (slots (frames.map Prod.snd))[k]? with
  | none =>
    -- both are as long as the counts say
    rw [List.getElem?_eq_none_iff, slots, length_expand, map_snd_zipIdx_swap] at hslot
    rw [Option.bind_none, List.getElem?_eq_none_iff, length_expand]
    exact hslot
  | some i =>
    obtain ⟨hle, hlt⟩ := (getElem?_slots _ _ _).mp hslot
    rw [getElem?_expand frames hle hlt, Option.bind_some]

/-! ## The common step -/

/-- The common step divides every delay. -/
theorem commonStep_dvd {delays : List ℕ} {d : ℕ} (h : d ∈ delays) : commonStep delays ∣ d := by
  induction delays with
  | nil => cases h
  | cons e delays ih =>
    rcases List.mem_cons.mp h with rfl | h
    · exact Nat.gcd_dvd_left _ _
    · exact (Nat.gcd_dvd_right _ _).trans (ih h)

/-- Every common divisor of the delays divides the common step. -/
theorem dvd_commonStep {delays : List ℕ} {k : ℕ} (h : ∀ d ∈ delays, k ∣ d) :
    k ∣ commonStep delays := by
  induction delays with
  | nil => exact Nat.dvd_zero k
  | cons d delays ih =>
    rw [List.forall_mem_cons] at h
    exact Nat.dvd_gcd h.1 (ih h.2)

/-- The common step is positive when some delay is. -/
theorem commonStep_pos {delays : List ℕ} {d : ℕ} (h : d ∈ delays) (hd : 0 < d) :
    0 < commonStep delays :=
  Nat.pos_of_dvd_of_pos (commonStep_dvd h) hd

/-- The common step of positive delays is positive. -/
theorem commonStep_pos_of_ne_nil {delays : List ℕ} (hne : delays ≠ [])
    (hpos : ∀ d ∈ delays, 0 < d) : 0 < commonStep delays := by
  obtain ⟨d, hd⟩ := List.exists_mem_of_ne_nil delays hne
  exact commonStep_pos hd (hpos d hd)

/-- The common step is the greatest of the common divisors. -/
theorem isGreatest_commonStep {delays : List ℕ} (h : 0 < commonStep delays) :
    IsGreatest {k | ∀ d ∈ delays, k ∣ d} (commonStep delays) :=
  ⟨fun _ hd => commonStep_dvd hd, fun _ hk => Nat.le_of_dvd h (dvd_commonStep hk)⟩

/-- A subgroup that holds every delay holds the common step. -/
theorem commonStep_mem {R : Type*} [Ring R] {delays : List ℕ} {H : AddSubgroup R}
    (h : ∀ d ∈ delays, (d : R) ∈ H) : (commonStep delays : R) ∈ H := by
  induction delays with
  | nil => simp [commonStep]
  | cons d delays ih =>
    rw [List.forall_mem_cons] at h
    have hbezout : (commonStep (d :: delays) : R) =
        Nat.gcdA d (commonStep delays) • (d : R) +
          Nat.gcdB d (commonStep delays) • (commonStep delays : R) := by
      have hgcd := congrArg (Int.cast : ℤ → R) (Nat.gcd_eq_gcd_ab d (commonStep delays))
      push_cast at hgcd
      rw [zsmul_eq_mul, zsmul_eq_mul, Int.cast_comm, Int.cast_comm]
      exact hgcd
    rw [hbezout]
    exact add_mem (zsmul_mem h.1 _) (zsmul_mem (ih h.2) _)

/-- A frame that begins at a multiple of a common divisor of the delays begins, counted in steps of
that divisor, where the counts say. -/
theorem start_map_div {delays : List ℕ} {g : ℕ} (h : ∀ d ∈ delays, g ∣ d) (i : ℕ) :
    start (delays.map (· / g)) i * g = start delays i := by
  induction delays generalizing i with
  | nil => simp [start]
  | cons d delays ih =>
    rw [List.forall_mem_cons] at h
    cases i with
    | zero => simp
    | succ i =>
      rw [List.map_cons, start_cons_succ, start_cons_succ, Nat.add_mul,
        Nat.div_mul_cancel h.1, ih h.2]

/-- The counts of a common divisor add up to the sum of the delays. -/
theorem sum_map_div {delays : List ℕ} {g : ℕ} (h : ∀ d ∈ delays, g ∣ d) :
    (delays.map (· / g)).sum * g = delays.sum := by
  have hstart := start_map_div h delays.length
  rwa [start, start, List.take_of_length_le (by simp), List.take_length] at hstart

/-! ## Times -/

variable {K : Type*} [Field K] [LinearOrder K] [FloorSemiring K]

/-- The entry on screen at time `t`, when each entry is shown for `step`. -/
def shown (entries : List α) (step t : K) : Option α := entries[⌊t / step⌋₊]?

/-- Shown for `step` each, the indices keep the delays: at every time from the start on, frame `i`
is on screen exactly between its start and the start of the next frame. -/
def Exact (indices : List ℕ) (step : K) (delays : List ℕ) : Prop :=
  ∀ t : K, 0 ≤ t → ∀ i,
    shown indices step t = some i ↔ (start delays i : K) ≤ t ∧ t < start delays (i + 1)

variable [IsStrictOrderedRing K]

/-- Expanding by a common divisor of the delays, and showing each entry for that divisor, keeps the
delays. -/
theorem exact_slots {delays : List ℕ} {g : ℕ} (hg : 0 < g) (h : ∀ d ∈ delays, g ∣ d) :
    Exact (slots (delays.map (· / g))) (g : K) delays := by
  intro t ht i
  have hg' : (0 : K) < g := Nat.cast_pos.mpr hg
  have hstart : ∀ i, (start delays i : K) = start (delays.map (· / g)) i * g := by
    intro i
    rw [← start_map_div h i, Nat.cast_mul]
  rw [shown, getElem?_slots, Nat.le_floor_iff (div_nonneg ht hg'.le),
    Nat.floor_lt (div_nonneg ht hg'.le), le_div_iff₀ hg', div_lt_iff₀ hg', hstart, hstart]

/-- The entry on screen does not change within a step. -/
theorem shown_of_mem_step {entries : List α} {step t : K} (hstep : 0 < step) {k : ℕ}
    (hle : k * step ≤ t) (hlt : t < (k + 1) * step) : shown entries step t = entries[k]? := by
  have ht : 0 ≤ t := (mul_nonneg k.cast_nonneg hstep.le).trans hle
  have hfloor : ⌊t / step⌋₊ = k := by
    rw [Nat.floor_eq_iff (div_nonneg ht hstep.le), le_div_iff₀ hstep, div_lt_iff₀ hstep]
    exact ⟨hle, hlt⟩
  rw [shown, hfloor]

/-- Every time lies in a step. -/
theorem exists_mem_step {step t : K} (hstep : 0 < step) (ht : 0 ≤ t) :
    ∃ k : ℕ, k * step ≤ t ∧ t < (k + 1) * step := by
  refine ⟨⌊t / step⌋₊, ?_, ?_⟩
  · rw [← le_div_iff₀ hstep]
    exact Nat.floor_le (div_nonneg ht hstep.le)
  · rw [← div_lt_iff₀ hstep]
    exact Nat.lt_floor_add_one _

/-- Where the delays are kept, every frame begins at a multiple of the step. -/
theorem Exact.start_mem {indices delays : List ℕ} {step : K} (h : Exact indices step delays)
    (hstep : 0 < step) (i : ℕ) : (start delays i : K) ∈ AddSubgroup.zmultiples step := by
  induction i with
  | zero => simp
  | succ i ih =>
    set T : K := ((start delays (i + 1) : ℕ) : K) with hT
    set S : K := ((start delays i : ℕ) : K) with hS
    have hT0 : 0 ≤ T := Nat.cast_nonneg _
    have hST : S ≤ T := Nat.cast_le.mpr (start_le_succ delays i)
    rcases hST.eq_or_lt with hST | hST
    · rwa [← hST]
    obtain ⟨k, hle, hlt⟩ := exists_mem_step hstep hT0
    rcases hle.eq_or_lt with heq | hkT
    · rw [← heq]
      exact ⟨k, by simp⟩
    -- otherwise one step would show frame `i` both before and after the frame ends
    · have ht : max (k * step) S < T := max_lt hkT hST
      have hbefore : shown indices step (max (k * step) S) = some i :=
        (h _ (le_max_of_le_right (Nat.cast_nonneg _)) i).mpr ⟨le_max_right _ _, ht⟩
      have hafter : shown indices step T = some i := by
        rw [shown_of_mem_step hstep hle hlt, ← hbefore,
          shown_of_mem_step hstep (le_max_left _ _) (ht.trans hlt)]
      exact absurd ((h T hT0 i).mp hafter).2 (lt_irrefl T)

/-- No longer step than the common step keeps the delays. -/
theorem Exact.step_le {indices delays : List ℕ} {step : K} (h : Exact indices step delays)
    (hstep : 0 < step) (hpos : 0 < commonStep delays) : step ≤ commonStep delays := by
  have hmem : (commonStep delays : K) ∈ AddSubgroup.zmultiples step := by
    refine commonStep_mem fun d hd => ?_
    obtain ⟨i, hi⟩ := List.mem_iff_getElem?.mp hd
    have hdelay : (d : K) = start delays (i + 1) - start delays i := by
      rw [start_succ hi, Nat.cast_add, add_sub_cancel_left]
    rw [hdelay]
    exact sub_mem (h.start_mem hstep _) (h.start_mem hstep _)
  obtain ⟨n, hn⟩ := AddSubgroup.mem_zmultiples_iff.mp hmem
  rw [zsmul_eq_mul] at hn
  have hn' : (0 : K) < n * step := hn ▸ Nat.cast_pos.mpr hpos
  have hn1 : (1 : K) ≤ n := by
    have : 0 < n := by exact_mod_cast (mul_pos_iff_of_pos_right hstep).mp hn'
    exact_mod_cast this
  rw [← hn]
  exact le_mul_of_one_le_left hstep.le hn1

end Schedule
