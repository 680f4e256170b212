import Mathlib.Data.Int.GCD
import LearnCode.Checked
import LearnCode.Library.Schedule
import LearnCode.Swift

/-!
# The GIF loader

`UIImage.animatedImageWithSource` reads the frames of an image source into two arrays, one of
images and one of delays, and repeats each image as often as the greatest common divisor of the
delays goes into its own. An image source is the list of its frames; what ImageIO decodes from a
frame is `none` where the frame cannot be decoded. A `UIImage` made of a `CGImage` is that image.
Delays and durations are the exact values of the doubles. The two operations on doubles round their
exact results by a parameter `round`, which is `toDouble` in the program.

## Main definitions

* `CGImageSource`: the frames of an image source;
* `delayForImageAtIndex`, `gcdForPair`, `gcdForArray`, `animatedImageWithSource`: the functions of
  the source under their names;
* `gcdLoop`: the loop of `gcdForPair`;
* `fillArrays` and `appendFrames`: a pass of each of the two loops of `animatedImageWithSource`;
* `Truncates`: what the loader computes for the delays of a source;
* `milliseconds`: the delays of a source, truncated without rounding.

## Main results

* `gcdForArray_natCast` and `gcdForArray_of_zero_mem`: the greatest common divisor of delays that are
  not zero, and the trap of one that is;
* `foldlM_fillArrays`: the arrays after the first loop;
* `foldlM_appendFrames` and `foldlM_appendFrames_error`: the frames after the second, or its trap.
-/

namespace LearnCode.GIF

open CheckedLoop Schedule SwiftInt

/-- An object of a property dictionary, by what the loader asks of it. -/
structure DelayObject where
  /-- `doubleValue`, where the object has one. -/
  doubleValue : Option ℚ
  /-- `as? Double`. -/
  asDouble : Option ℚ
  deriving DecidableEq

/-- `kCGImagePropertyGIFDictionary`. -/
structure GIFProperties where
  /-- `kCGImagePropertyGIFUnclampedDelayTime`. -/
  unclampedDelayTime : DelayObject
  /-- `kCGImagePropertyGIFDelayTime`. -/
  delayTime : DelayObject
  deriving DecidableEq

/-- A frame of an image source. -/
structure SourceFrame (CGImage : Type) where
  /-- `CGImageSourceCreateImageAtIndex`. -/
  image : Option CGImage
  /-- The GIF dictionary of `CGImageSourceCopyPropertiesAtIndex`. -/
  gifProperties : Option GIFProperties

/-- An image source: its frames. -/
abbrev CGImageSource (CGImage : Type) : Type := List (SourceFrame CGImage)

/-- The images and the duration given to `UIImage.animatedImage(with:duration:)`. -/
structure AnimatedImage (CGImage : Type) where
  /-- The images of the frames, in the order in which they are shown. -/
  images : List CGImage
  /-- The duration of all frames together. -/
  duration : TimeInterval

variable {CGImage : Type}

/-- The delay that the GIF dictionary of a frame gives, or a tenth of a second. -/
def delayOfProperties : Option GIFProperties → TimeInterval
  | none => 1 / 10
  | some gifProperties =>
    let delayObject :=
      if gifProperties.unclampedDelayTime.doubleValue = some 0 then gifProperties.delayTime
      else gifProperties.unclampedDelayTime
    match delayObject.asDouble with
    | some delayObject => if 0 < delayObject then delayObject else 1 / 10
    | none => 1 / 10

/-- `delayForImageAtIndex`. Outside the source there are no properties. -/
def delayForImageAtIndex (index : ℕ) (source : CGImageSource CGImage) : TimeInterval :=
  delayOfProperties (source[index]?.bind SourceFrame.gifProperties)

/-- The loop of `gcdForPair`. -/
def gcdLoop (lhs rhs : ℤ) : Except Trap ℤ :=
  match h : rem lhs rhs with
  | .error trap => .error trap
  | .ok rest =>
    have := natAbs_lt_of_rem h
    if rest = 0 then .ok rhs else gcdLoop rhs rest
termination_by rhs.natAbs

/-- `gcdForPair`. -/
def gcdForPair (lhs rhs : Option ℤ) : Except Trap ℤ :=
  match lhs, rhs with
  | _, none => .ok (lhs.getD 0)
  | none, some rhs => .ok rhs
  | some lhs, some rhs => if lhs < rhs then gcdLoop rhs lhs else gcdLoop lhs rhs

/-- `gcdForArray`. -/
def gcdForArray : List ℤ → Except Trap ℤ
  | [] => .ok 1
  | array@(first :: _) => array.foldlM (fun gcd val => gcdForPair (some val) (some gcd)) first

/-- One pass of the loop that fills the arrays of images and of delays. -/
def fillArrays (round : ℚ → ℚ) (source : CGImageSource CGImage) (arrays : List CGImage × List ℤ)
    (index : ℕ) : Except Trap (List CGImage × List ℤ) := do
  let images :=
    match source[index]?.bind SourceFrame.image with
    | some image => arrays.1 ++ [image]
    | none => arrays.1
  let delay ← ofDouble (round (delayForImageAtIndex index source * 1000))
  return (images, arrays.2 ++ [delay])

/-- One pass of the loop that repeats the frames. -/
def appendFrames (images : List CGImage) (delays : List ℤ) (gcd : ℤ) (frames : List CGImage)
    (index : ℕ) : Except Trap (List CGImage) := do
  let frame ← subscript images index
  let delay ← subscript delays index
  let frameCount ← div delay gcd
  let indices ← upTo frameCount
  return indices.foldl (fun frames _ => frames ++ [frame]) frames

/-- `animatedImageWithSource`. -/
def animatedImageWithSource (round : ℚ → ℚ) (source : CGImageSource CGImage) :
    Except Trap (AnimatedImage CGImage) := do
  let (images, delays) ← (List.range source.length).foldlM (fillArrays round source) ([], [])
  let duration ← delays.foldlM add 0
  let gcd ← gcdForArray delays
  let frames ← (List.range source.length).foldlM (appendFrames images delays gcd) []
  return { images := frames, duration := round (round duration / 1000) }

/-! ## The delays -/

/-- Every delay is more than zero seconds. -/
theorem delayOfProperties_pos (gifProperties : Option GIFProperties) :
    0 < delayOfProperties gifProperties := by
  unfold delayOfProperties
  split
  · norm_num
  · dsimp only
    split
    · split_ifs with h
      · exact h
      · norm_num
    · norm_num

/-- The delay of a frame. -/
def SourceFrame.delay (frame : SourceFrame CGImage) : TimeInterval :=
  delayOfProperties frame.gifProperties

/-- The delay of a frame in whole milliseconds. -/
def SourceFrame.milliseconds (frame : SourceFrame CGImage) : ℕ := ⌊frame.delay * 1000⌋₊

/-- The delays of a source in whole milliseconds. -/
def milliseconds (source : CGImageSource CGImage) : List ℕ := source.map SourceFrame.milliseconds

/-- The millisecond value of every delay fits an `Int`. -/
def DelaysFit (source : CGImageSource CGImage) : Prop :=
  ∀ frame ∈ source, frame.delay * 1000 < 2 ^ 63

/-- A frame whose GIF dictionary gives this delay time. -/
def SourceFrame.lasting (image : Option CGImage) (seconds : TimeInterval) : SourceFrame CGImage :=
  { image
    gifProperties := some
      { unclampedDelayTime := { doubleValue := seconds, asDouble := seconds }
        delayTime := { doubleValue := seconds, asDouble := seconds } } }

/-- A delay time of more than zero seconds is the delay of the frame. -/
theorem delay_lasting (image : Option CGImage) {seconds : TimeInterval} (h : 0 < seconds) :
    (SourceFrame.lasting image seconds).delay = seconds := by
  simp [SourceFrame.delay, SourceFrame.lasting, delayOfProperties, h]

theorem delay_nonneg (frame : SourceFrame CGImage) : 0 ≤ frame.delay * 1000 :=
  (mul_pos (delayOfProperties_pos _) (by norm_num)).le

/-- The loader truncates the products of the delays of a source to these numbers. -/
def Truncates (round : ℚ → ℚ) (source : CGImageSource CGImage) (delays : List ℕ) : Prop :=
  List.Forall₂ (fun frame (d : ℕ) => ofDouble (round (frame.delay * 1000)) = .ok (d : ℤ))
    source delays

/-- Without rounding, the delays that fit are truncated to their whole milliseconds. -/
theorem truncates_milliseconds {source : CGImageSource CGImage} (h : DelaysFit source) :
    Truncates id source (milliseconds source) := by
  rw [Truncates, milliseconds, List.forall₂_map_right_iff, List.forall₂_same]
  exact fun frame hframe => ofDouble_eq (delay_nonneg frame) (h frame hframe)

/-- What the loader truncates to is a value of `Int`. -/
theorem Truncates.le_intMax {round : ℚ → ℚ} {source : CGImageSource CGImage} {delays : List ℕ}
    (h : Truncates round source delays) : ∀ d ∈ delays, (d : ℤ) ≤ intMax := by
  induction h with
  | nil => simp
  | cons hframe _ ih => exact List.forall_mem_cons.mpr ⟨(fits_of_checked hframe).2, ih⟩

/-! ## The greatest common divisor -/

/-- A first remainder by zero traps. -/
@[simp] theorem gcdLoop_zero (lhs : ℤ) : gcdLoop lhs 0 = .error .divisionByZero := by
  rw [gcdLoop]
  rfl

/-- The loop returns the greatest common divisor when it does not start with a zero divisor. -/
theorem gcdLoop_natCast {lhs rhs : ℕ} (hlhs : (lhs : ℤ) ≤ intMax) (hrhs : (rhs : ℤ) ≤ intMax)
    (hpos : 0 < rhs) : gcdLoop lhs rhs = .ok (Nat.gcd lhs rhs : ℤ) := by
  -- each pass replaces the pair by the divisor and a smaller remainder
  induction rhs using Nat.strong_induction_on generalizing lhs with
  | h rhs ih =>
    have hlt : lhs % rhs < rhs := Nat.mod_lt _ hpos
    rw [gcdLoop]
    split
    · next hrem => rw [rem_natCast hlhs hpos] at hrem; cases hrem
    · next rest hrem =>
      rw [rem_natCast hlhs hpos] at hrem
      cases hrem
      rw [Nat.gcd_comm, Nat.gcd_rec, Nat.gcd_comm]
      rcases Nat.eq_zero_or_pos (lhs % rhs) with hzero | hrest
      · simp [hzero]
      · rw [if_neg (by omega), ih _ hlt hrhs (by omega) hrest]

/-- A pair of delays traps exactly when one of them is zero. -/
theorem gcdForPair_natCast {lhs rhs : ℕ} (hlhs : (lhs : ℤ) ≤ intMax) (hrhs : (rhs : ℤ) ≤ intMax) :
    gcdForPair (some lhs) (some rhs) =
      if 0 < lhs ∧ 0 < rhs then .ok (Nat.gcd lhs rhs : ℤ) else .error .divisionByZero := by
  have hloop : ∀ {a b : ℕ}, (a : ℤ) ≤ intMax → (b : ℤ) ≤ intMax → b ≤ a →
      gcdLoop a b = if 0 < a ∧ 0 < b then .ok (Nat.gcd a b : ℤ) else .error .divisionByZero := by
    intro a b ha hb hle
    rcases Nat.eq_zero_or_pos b with rfl | hpos
    · simp
    · rw [gcdLoop_natCast ha hb hpos, if_pos ⟨by omega, hpos⟩]
  simp only [gcdForPair, Nat.cast_lt]
  split_ifs with hlt hpos hpos
  · rw [hloop hrhs hlhs hlt.le, if_pos hpos.symm, Nat.gcd_comm]
  · rw [hloop hrhs hlhs hlt.le, if_neg fun h => hpos h.symm]
  · rw [hloop hlhs hrhs (not_lt.mp hlt), if_pos hpos]
  · rw [hloop hlhs hrhs (not_lt.mp hlt), if_neg hpos]

/-- The loop of `gcdForArray` from a divisor that is not zero. -/
theorem foldlM_gcdForPair {array : List ℕ} (hfits : ∀ d ∈ array, (d : ℤ) ≤ intMax) {gcd : ℕ}
    (hgcd : (gcd : ℤ) ≤ intMax) (hpos : 0 < gcd) :
    (array.map Nat.cast).foldlM (fun gcd val => gcdForPair (some val) (some gcd)) (gcd : ℤ) =
      if ∀ d ∈ array, 0 < d then .ok (Nat.gcd gcd (commonStep array) : ℤ)
      else .error .divisionByZero := by
  induction array generalizing gcd with
  | nil => simp [commonStep]; rfl
  | cons d array ih =>
    rw [List.forall_mem_cons] at hfits
    rw [List.map_cons, List.foldlM_cons, gcdForPair_natCast hfits.1 hgcd]
    simp only [List.forall_mem_cons, hpos, and_true]
    by_cases hd : 0 < d
    · -- the divisor never grows, so it stays an int
      have hle : Nat.gcd d gcd ≤ gcd := Nat.gcd_le_right d hpos
      rw [if_pos hd, ok_bind, ih hfits.2 (by omega) (Nat.gcd_pos_of_pos_left gcd hd),
        Nat.gcd_comm d gcd, Nat.gcd_assoc]
      simp only [hd, true_and]
      rfl
    · -- a delay of zero is divided by at once
      rw [if_neg hd, error_bind, if_neg fun h => hd h.1]

/-- An array of delays that are not zero has a greatest common divisor. -/
theorem gcdForArray_natCast {array : List ℕ} (hfits : ∀ d ∈ array, (d : ℤ) ≤ intMax)
    (hne : array ≠ []) (hpos : ∀ d ∈ array, 0 < d) :
    gcdForArray (array.map Nat.cast) = .ok (commonStep array : ℤ) := by
  cases array with
  | nil => exact absurd rfl hne
  | cons d array =>
    -- the loop visits the first delay again
    have hfold := foldlM_gcdForPair hfits (hfits d List.mem_cons_self) (hpos d List.mem_cons_self)
    rw [if_pos hpos, Nat.gcd_eq_right (commonStep_dvd List.mem_cons_self)] at hfold
    exact hfold

/-- A delay of zero in the array traps. -/
theorem gcdForArray_of_zero_mem {array : List ℕ} (hfits : ∀ d ∈ array, (d : ℤ) ≤ intMax)
    (hzero : 0 ∈ array) : gcdForArray (array.map Nat.cast) = .error .divisionByZero := by
  cases array with
  | nil => cases hzero
  | cons d array =>
    rcases Nat.eq_zero_or_pos d with rfl | hd
    · rw [List.map_cons, gcdForArray, List.foldlM_cons, gcdForPair_natCast (by decide) (by decide)]
      rfl
    · have hfold := foldlM_gcdForPair hfits (hfits d List.mem_cons_self) hd
      rw [if_neg fun h => absurd (h 0 hzero) (lt_irrefl 0)] at hfold
      exact hfold

/-! ## The loops -/

/-- The arrays after the passes over the first `k` frames: the images that decode, and all
delays. -/
def arraysBefore (source : CGImageSource CGImage) (delays : List ℕ) (k : ℕ) :
    List CGImage × List ℤ :=
  ((source.take k).filterMap SourceFrame.image, (delays.take k).map Nat.cast)

/-- A pass at the index of a frame leads from the arrays before it to those before the next. -/
theorem fillArrays_arraysBefore {round : ℚ → ℚ} {source : CGImageSource CGImage} {delays : List ℕ}
    (h : Truncates round source delays) {k : ℕ} (hk : k < source.length) :
    fillArrays round source (arraysBefore source delays k) k =
      .ok (arraysBefore source delays (k + 1)) := by
  have hk' : k < delays.length := h.length_eq ▸ hk
  have hframe := List.getElem?_eq_getElem hk
  have hdelay : delayForImageAtIndex k source = source[k].delay := by
    rw [delayForImageAtIndex, hframe]
    rfl
  have hms : ofDouble (round (source[k].delay * 1000)) = .ok (delays[k] : ℤ) :=
    List.Forall₂.get h hk hk'
  simp only [fillArrays, arraysBefore, hdelay, hms, hframe, ok_bind, List.take_add_one,
    List.getElem?_eq_getElem hk', Option.bind_some, Option.toList_some, List.map_append,
    List.filterMap_append]
  cases himage : source[k].image <;> simp [himage] <;> rfl

/-- The arrays that the first loop fills. -/
theorem foldlM_fillArrays {round : ℚ → ℚ} {source : CGImageSource CGImage} {delays : List ℕ}
    (h : Truncates round source delays) :
    (List.range source.length).foldlM (fillArrays round source) ([], []) =
      .ok (source.filterMap SourceFrame.image, delays.map Nat.cast) := by
  have hloop := foldlM_range_ok (arraysBefore source delays) fun k hk =>
    fillArrays_arraysBefore h hk
  simpa [arraysBefore, List.take_of_length_le h.length_eq.ge] using hloop

/-- One pass appends the frame of its index, as often as the divisor goes into its delay. -/
theorem appendFrames_eq {images frames : List CGImage} {delays : List ℕ} {gcd index d : ℕ}
    {image : CGImage} (hpos : 0 < gcd) (hfits : (d : ℤ) ≤ intMax)
    (himage : images[index]? = some image) (hd : delays[index]? = some d) :
    appendFrames images (delays.map Nat.cast) gcd frames index =
      .ok (frames ++ List.replicate (d / gcd) image) := by
  have happend : (List.range (d / gcd)).foldl (fun frames _ => frames ++ [image]) frames =
      frames ++ List.replicate (d / gcd) image := by
    rw [List.foldl_append_eq_append]
    simp
  have hdelay : (delays.map (Nat.cast : ℕ → ℤ))[index]? = some (d : ℤ) := by
    rw [List.getElem?_map, hd]
    rfl
  rw [appendFrames, subscript_of_getElem? himage, ok_bind, subscript_of_getElem? hdelay, ok_bind,
    div_natCast hfits hpos, ok_bind, upTo_natCast, ok_bind, happend]
  rfl

/-- The frames after the passes over the first `k` indices. -/
def framesBefore (images : List CGImage) (delays : List ℕ) (gcd k : ℕ) : List CGImage :=
  expand ((images.zip (delays.map (· / gcd))).take k)

/-- A pass at an index of both arrays leads from the frames before it to those before the next. -/
theorem appendFrames_framesBefore {images : List CGImage} {delays : List ℕ} {gcd k : ℕ}
    (hpos : 0 < gcd) (hfits : ∀ d ∈ delays, (d : ℤ) ≤ intMax) (himages : k < images.length)
    (hdelays : k < delays.length) :
    appendFrames images (delays.map Nat.cast) gcd (framesBefore images delays gcd k) k =
      .ok (framesBefore images delays gcd (k + 1)) := by
  rw [appendFrames_eq hpos (hfits _ (List.getElem_mem hdelays)) (List.getElem?_eq_getElem himages)
    (List.getElem?_eq_getElem hdelays)]
  have hk : (images.zip (delays.map (· / gcd)))[k]? = some (images[k], delays[k] / gcd) := by
    simp [himages, hdelays]
  rw [framesBefore, framesBefore, List.take_add_one, hk, Option.toList_some, expand_append,
    expand_singleton]

/-- The frames that the second loop builds, where every frame has an image. -/
theorem foldlM_appendFrames {images : List CGImage} {delays : List ℕ} {gcd : ℕ} (hpos : 0 < gcd)
    (hfits : ∀ d ∈ delays, (d : ℤ) ≤ intMax) (hlength : images.length = delays.length) :
    (List.range delays.length).foldlM (appendFrames images (delays.map Nat.cast) gcd) [] =
      .ok (expand (images.zip (delays.map (· / gcd)))) := by
  have hloop := foldlM_range_ok (framesBefore images delays gcd) (n := delays.length)
    fun k hk => appendFrames_framesBefore hpos hfits (hlength ▸ hk) hk
  rwa [framesBefore, List.take_zero, framesBefore, List.take_of_length_le (by simp [hlength])]
    at hloop

/-- Where fewer images than frames decode, the second loop indexes past the last image. -/
theorem foldlM_appendFrames_error {images : List CGImage} {delays : List ℕ} {gcd : ℕ}
    (hpos : 0 < gcd) (hfits : ∀ d ∈ delays, (d : ℤ) ≤ intMax)
    (hlength : images.length < delays.length) :
    (List.range delays.length).foldlM (appendFrames images (delays.map Nat.cast) gcd) [] =
      .error .indexOutOfRange := by
  refine foldlM_range_error (framesBefore images delays gcd) hlength
    (fun k hk => appendFrames_framesBefore hpos hfits hk (hk.trans hlength)) ?_
  rw [appendFrames, subscript_of_length_le le_rfl, error_bind]

end LearnCode.GIF
