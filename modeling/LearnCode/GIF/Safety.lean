import LearnCode.GIF.Loader

/-!
# When the GIF loader ends

The loader fills its array of images only from the frames that decode, and its array of delays from
all frames, and then indexes both by the frame. It truncates every delay to whole milliseconds
before it takes remainders by it, and it adds all delays up. It therefore ends, with every image
beside its own delay, exactly when every frame decodes, no delay is below a millisecond and the
total fits an `Int`.

## Main definitions

* `LoadsSafely`: the loader ends, and every image that decodes has its own delay;
* `Loadable`: the condition on the source.

## Main results

* `animatedImageWithSource_eq`: the animation of a loadable source;
* `animatedImageWithSource_overflow`, `animatedImageWithSource_divisionByZero` and
  `animatedImageWithSource_indexOutOfRange`: the trap of every other source;
* `loadsSafely_iff_loadable`: the loader is safe exactly on the loadable sources.
-/

namespace LearnCode.GIF

open CheckedLoop Schedule SwiftInt

variable {CGImage : Type}

/-- On exact delays, the loader ends without a trap, and its two arrays give to every frame that
decodes the delay of that frame. -/
def LoadsSafely (source : CGImageSource CGImage) : Prop :=
  ∃ images delays animation,
    (List.range source.length).foldlM (fillArrays id source) ([], []) = .ok (images, delays) ∧
    images.zip delays = source.filterMap (fun frame =>
      frame.image.map fun image => (image, (frame.milliseconds : ℤ))) ∧
    animatedImageWithSource id source = .ok animation

/-- Every frame decodes and stays for a millisecond at least, and all of them together for a time
that fits an `Int`. -/
structure Loadable (source : CGImageSource CGImage) : Prop where
  /-- Every frame decodes. -/
  decodes : ∀ frame ∈ source, frame.image.isSome
  /-- No delay is below a millisecond. -/
  millisecond : ∀ frame ∈ source, 1 / 1000 ≤ frame.delay
  /-- The milliseconds of all delays add up to a value of `Int`. -/
  total : ((milliseconds source).sum : ℤ) ≤ intMax

/-- The milliseconds of a delay are zero exactly below a millisecond. -/
theorem milliseconds_pos_iff (frame : SourceFrame CGImage) :
    0 < frame.milliseconds ↔ 1 / 1000 ≤ frame.delay := by
  rw [SourceFrame.milliseconds, Nat.floor_pos, div_le_iff₀ (by norm_num)]

/-- Where every frame has a delay, there are as many images as delays exactly when every frame
decodes. -/
theorem length_filterMap_image {source : CGImageSource CGImage} {delays : List ℕ}
    (hlength : source.length = delays.length) :
    (source.filterMap SourceFrame.image).length = delays.length ↔
      ∀ frame ∈ source, frame.image.isSome := by
  rw [← hlength]
  exact List.filterMap_length_eq_length

section Delays

variable {round : ℚ → ℚ} {source : CGImageSource CGImage} {delays : List ℕ}
  (h : Truncates round source delays)

include h

/-- The loader after its first loop. -/
theorem animatedImageWithSource_of_truncates :
    animatedImageWithSource round source = do
      let duration ← checked (delays.sum : ℤ)
      let gcd ← gcdForArray (delays.map Nat.cast)
      let frames ← (List.range delays.length).foldlM
        (appendFrames (source.filterMap SourceFrame.image) (delays.map Nat.cast) gcd) []
      return { images := frames, duration := round (round duration / 1000) } := by
  have hsum := foldlM_add delays 0 (by decide)
  rw [Nat.zero_add, Nat.cast_zero] at hsum
  rw [animatedImageWithSource, foldlM_fillArrays h, ok_bind]
  simp only [hsum]
  rw [h.length_eq]

/-- A total that does not fit traps. -/
theorem animatedImageWithSource_overflow (htotal : ¬ (delays.sum : ℤ) ≤ intMax) :
    animatedImageWithSource round source = .error .overflow := by
  rw [animatedImageWithSource_of_truncates h, checked_natCast, if_neg htotal, error_bind]

/-- A delay below a millisecond traps. -/
theorem animatedImageWithSource_divisionByZero (htotal : (delays.sum : ℤ) ≤ intMax)
    (hzero : 0 ∈ delays) : animatedImageWithSource round source = .error .divisionByZero := by
  rw [animatedImageWithSource_of_truncates h, checked_of_le htotal, ok_bind,
    gcdForArray_of_zero_mem h.le_intMax hzero, error_bind]

/-- A frame that does not decode traps. -/
theorem animatedImageWithSource_indexOutOfRange (htotal : (delays.sum : ℤ) ≤ intMax)
    (hpos : ∀ d ∈ delays, 0 < d) (hdecodes : ¬ ∀ frame ∈ source, frame.image.isSome) :
    animatedImageWithSource round source = .error .indexOutOfRange := by
  have hne : delays ≠ [] := by
    rintro rfl
    exact hdecodes (by simp [List.forall₂_nil_right_iff.mp h])
  have hlength : (source.filterMap SourceFrame.image).length < delays.length := by
    refine lt_of_le_of_ne ?_ fun heq => hdecodes ((length_filterMap_image h.length_eq).mp heq)
    rw [← h.length_eq]
    exact List.length_filterMap_le _ _
  rw [animatedImageWithSource_of_truncates h, checked_of_le htotal, ok_bind,
    gcdForArray_natCast h.le_intMax hne hpos, ok_bind,
    foldlM_appendFrames_error (commonStep_pos_of_ne_nil hne hpos) h.le_intMax hlength, error_bind]

/-- The animation of a source whose frames decode, for a millisecond or more each: every image
repeated as often as the greatest common divisor of the delays goes into its own. -/
theorem animatedImageWithSource_eq (hdecodes : ∀ frame ∈ source, frame.image.isSome)
    (hpos : ∀ d ∈ delays, 0 < d) (htotal : (delays.sum : ℤ) ≤ intMax) :
    animatedImageWithSource round source = .ok
      { images := expand ((source.filterMap SourceFrame.image).zip
          (delays.map (· / commonStep delays)))
        duration := round (round (delays.sum : ℤ) / 1000) } := by
  rw [animatedImageWithSource_of_truncates h, checked_of_le htotal, ok_bind]
  rcases eq_or_ne delays [] with rfl | hne
  · simp [List.forall₂_nil_right_iff.mp h]
    rfl
  rw [gcdForArray_natCast h.le_intMax hne hpos, ok_bind,
    foldlM_appendFrames (commonStep_pos_of_ne_nil hne hpos) h.le_intMax
      ((length_filterMap_image h.length_eq).mpr hdecodes)]
  rfl

end Delays

variable {source : CGImageSource CGImage}

/-- The delays of a loadable source are not zero. -/
theorem Loadable.milliseconds_pos (hload : Loadable source) : ∀ d ∈ milliseconds source, 0 < d := by
  intro d hd
  obtain ⟨frame, hframe, rfl⟩ := List.mem_map.mp hd
  exact (milliseconds_pos_iff frame).mpr (hload.millisecond frame hframe)

/-- Where every frame decodes, every image is beside its own delay. -/
theorem zip_filterMap_image (hdecodes : ∀ frame ∈ source, frame.image.isSome) :
    (source.filterMap SourceFrame.image).zip ((milliseconds source).map (Nat.cast : ℕ → ℤ)) =
      source.filterMap fun frame =>
        frame.image.map fun image => (image, (frame.milliseconds : ℤ)) := by
  induction source with
  | nil => rfl
  | cons frame source ih =>
    rw [List.forall_mem_cons] at hdecodes
    obtain ⟨image, himage⟩ := Option.isSome_iff_exists.mp hdecodes.1
    rw [List.filterMap_cons_some himage, List.filterMap_cons_some (by rw [himage]; rfl),
      ← ih hdecodes.2]
    rfl

/-- A safe loader does not trap. -/
theorem LoadsSafely.ne_error (h : LoadsSafely source) (trap : Trap) :
    animatedImageWithSource id source ≠ .error trap := by
  obtain ⟨_, _, animation, -, -, hok⟩ := h
  rw [hok]
  exact nofun

/-- The loader is safe exactly on the loadable sources. -/
theorem loadsSafely_iff_loadable (source : CGImageSource CGImage) (h : DelaysFit source) :
    LoadsSafely source ↔ Loadable source := by
  have hms := truncates_milliseconds h
  constructor
  · intro hsafe
    -- the traps come in this order: the sum, the divisor, the images
    have htotal : ((milliseconds source).sum : ℤ) ≤ intMax := by
      by_contra htotal
      exact hsafe.ne_error _ (animatedImageWithSource_overflow hms htotal)
    have hpos : ∀ d ∈ milliseconds source, 0 < d := by
      intro d hd
      by_contra hzero
      obtain rfl : d = 0 := by omega
      exact hsafe.ne_error _ (animatedImageWithSource_divisionByZero hms htotal hd)
    refine ⟨?_, fun frame hframe => ?_, htotal⟩
    · by_contra hdecodes
      exact hsafe.ne_error _ (animatedImageWithSource_indexOutOfRange hms htotal hpos hdecodes)
    · exact (milliseconds_pos_iff frame).mp (hpos _ (List.mem_map_of_mem hframe))
  · intro hload
    exact ⟨_, _, _, foldlM_fillArrays hms, zip_filterMap_image hload.decodes,
      animatedImageWithSource_eq hms hload.decodes hload.milliseconds_pos hload.total⟩

/-- A delay of whole milliseconds is not truncated. -/
theorem milliseconds_lasting {CGImage : Type} (image : Option CGImage) {d : ℕ} (hpos : 0 < d) :
    (SourceFrame.lasting image (d / 1000)).milliseconds = d := by
  have hdelay : (0 : ℚ) < d / 1000 := by positivity
  rw [SourceFrame.milliseconds, delay_lasting image hdelay, div_mul_cancel₀ _ (by norm_num),
    Nat.floor_natCast]

/-- Frames of a tenth and of a quarter of a second. -/
def tenthAndQuarter : CGImageSource String :=
  [SourceFrame.lasting (some "first") ((100 : ℕ) / 1000),
    SourceFrame.lasting (some "second") ((250 : ℕ) / 1000)]

/-- Two frames that decode, with different delays, are loaded. -/
theorem loadsSafely_tenthAndQuarter : LoadsSafely tenthAndQuarter := by
  have hfirst := delay_lasting (some "first") (show (0 : ℚ) < (100 : ℕ) / 1000 by norm_num)
  have hsecond := delay_lasting (some "second") (show (0 : ℚ) < (250 : ℕ) / 1000 by norm_num)
  refine (loadsSafely_iff_loadable _ ?_).mpr
    ⟨by simp [tenthAndQuarter, SourceFrame.lasting], ?_, ?_⟩
  · simp only [DelaysFit, tenthAndQuarter, List.forall_mem_cons, hfirst, hsecond]
    norm_num
  · simp only [tenthAndQuarter, List.forall_mem_cons, hfirst, hsecond]
    norm_num
  · simp only [milliseconds, tenthAndQuarter, List.map_cons, List.map_nil,
      milliseconds_lasting _ (show 0 < 100 by decide), milliseconds_lasting _ (show 0 < 250 by decide)]
    decide

/-- Two frames of a tenth of a second, of which the second does not decode. -/
def undecodable : CGImageSource String :=
  [SourceFrame.lasting (some "first") (1 / 10), SourceFrame.lasting none (1 / 10)]

/-- A frame that decodes and stays for half a millisecond. -/
def brief : CGImageSource String := [SourceFrame.lasting (some "first") (1 / 2000)]

/-- A frame that does not decode ends the program, and so does one below a millisecond. -/
theorem undecodable_and_brief_trap :
    (DelaysFit undecodable ∧ animatedImageWithSource id undecodable = .error .indexOutOfRange ∧
      ¬ LoadsSafely undecodable) ∧
    DelaysFit brief ∧ animatedImageWithSource id brief = .error .divisionByZero ∧
      ¬ LoadsSafely brief := by
  -- the delays are those of the file, in milliseconds
  have hundecodable : milliseconds undecodable = [100, 100] := by
    simp only [milliseconds, undecodable, List.map_cons, List.map_nil, SourceFrame.milliseconds,
      delay_lasting _ (show (0 : ℚ) < 1 / 10 by norm_num)]
    norm_num
  have hhalf := delay_lasting (some "first") (show (0 : ℚ) < 1 / 2000 by norm_num)
  have hbrief : milliseconds brief = [0] := by
    simp only [milliseconds, brief, List.map_cons, List.map_nil, SourceFrame.milliseconds, hhalf]
    norm_num
  have hfits : DelaysFit undecodable := by
    simp only [DelaysFit, undecodable, List.forall_mem_cons,
      delay_lasting _ (show (0 : ℚ) < 1 / 10 by norm_num)]
    norm_num
  have hfits' : DelaysFit brief := by
    simp only [DelaysFit, brief, List.forall_mem_singleton, hhalf]
    norm_num
  have htrap : animatedImageWithSource id undecodable = .error .indexOutOfRange :=
    animatedImageWithSource_indexOutOfRange (truncates_milliseconds hfits)
      (by rw [hundecodable]; decide) (by rw [hundecodable]; decide)
      (by simp [undecodable, SourceFrame.lasting])
  have htrap' : animatedImageWithSource id brief = .error .divisionByZero :=
    animatedImageWithSource_divisionByZero (truncates_milliseconds hfits') (by rw [hbrief]; decide)
      (by rw [hbrief]; decide)
  exact ⟨⟨hfits, htrap, fun h => h.ne_error _ htrap⟩, hfits', htrap',
    fun h => h.ne_error _ htrap'⟩

end LearnCode.GIF
