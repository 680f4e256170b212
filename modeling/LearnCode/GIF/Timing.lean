import Mathlib.Algebra.Order.Archimedean.Real.Basic
import Mathlib.Algebra.Order.BigOperators.Group.List
import LearnCode.GIF.Safety

/-!
# The timing of an animation

An animation spreads its images evenly over its duration. The loader repeats every image as often as
the greatest common divisor of the delays goes into its own delay, so that every frame stays on
screen for its delay. The delays are those that the loader computes, in whole milliseconds, from the
seconds of the file: a product that is rounded to a double just below a whole number is truncated to
the millisecond before it.

## Main definitions

* `TimedFrame`: a frame that decodes, with a delay of whole milliseconds;
* `Holds`: a frame of a source is this one, by what the loader computes;
* `evenStep`: the time for which each image is shown, when they are spread over a total;
* `UniformTiming`: an animation keeps the timing of the frames, in steps of their greatest common
  divisor.

## Main results

* `animatedImageWithSource_uniformTiming`: the loader keeps the timing, however products are rounded,
  where the total fits an `Int`;
* `UniformTiming.shown_eq`: what is on screen between the start of a frame and that of the next.
-/

namespace LearnCode.GIF

open Schedule SwiftInt

variable {CGImage : Type}

/-- A frame that decodes and stays for whole milliseconds. -/
structure TimedFrame (CGImage : Type) where
  /-- The image of the frame. -/
  image : CGImage
  /-- The milliseconds for which the frame stays. -/
  delay : ℕ
  /-- The frame stays for a millisecond at least. -/
  one_le : 1 ≤ delay

/-- The frame of the source decodes to the image, and the loader computes the delay for it. -/
def Holds (round : ℚ → ℚ) (sourceFrame : SourceFrame CGImage) (frame : TimedFrame CGImage) : Prop :=
  sourceFrame.image = some frame.image ∧
    ofDouble (round (sourceFrame.delay * 1000)) = .ok (frame.delay : ℤ)

/-- The delays of the frames. -/
def delays (frames : List (TimedFrame CGImage)) : List ℕ := frames.map TimedFrame.delay

/-- The milliseconds for which each image is shown, when the images are spread evenly over a
total. -/
noncomputable def evenStep (total : ℕ) (images : List CGImage) : ℝ := total / images.length

/-- The animation keeps the timing of the frames in steps of `g` milliseconds. -/
structure UniformTiming (round : ℚ → ℚ) (frames : List (TimedFrame CGImage)) (g : ℕ)
    (animation : AnimatedImage CGImage) : Prop where
  /-- The step is the greatest common divisor of the delays. -/
  divisor : IsGreatest {k | ∀ d ∈ delays frames, k ∣ d} g
  /-- Every frame is repeated as often as the step goes into its delay. -/
  images : animation.images =
    frames.flatMap fun frame => List.replicate (frame.delay / g) frame.image
  /-- The steps of all images add up to the total of the delays. -/
  length : animation.images.length * g = (delays frames).sum
  /-- The duration in seconds is the total of the delays over a thousand, as doubles. -/
  duration : animation.duration = round (round (delays frames).sum / 1000)
  /-- An image is that of the frame whose index is in its slot. -/
  owner : ∀ k : ℕ, animation.images[k]? =
    (slots ((delays frames).map (· / g)))[k]?.bind fun i => frames[i]?.map TimedFrame.image
  /-- Every frame is on screen exactly from the sum of the delays before it to the sum with its
  own. -/
  onScreen : Exact (slots ((delays frames).map (· / g)))
    (evenStep (delays frames).sum animation.images) (delays frames)
  /-- No longer step shows every frame for its own time. -/
  longest : ∀ (indices : List ℕ) (step : ℝ), 0 < step → Exact indices step (delays frames) →
    step ≤ g

/-- The image of a frame is on screen between the start of the frame and the start of the next. -/
theorem UniformTiming.shown_eq {round : ℚ → ℚ} {frames : List (TimedFrame CGImage)} {g : ℕ}
    {animation : AnimatedImage CGImage} (h : UniformTiming round frames g animation) {i : ℕ}
    {frame : TimedFrame CGImage} (hframe : frames[i]? = some frame) {t : ℝ} (ht : 0 ≤ t)
    (hle : start (delays frames) i ≤ t) (hlt : t < start (delays frames) (i + 1)) :
    shown animation.images (evenStep (delays frames).sum animation.images) t =
      some frame.image := by
  have hslot := (h.onScreen t ht i).mpr ⟨hle, hlt⟩
  rw [shown] at hslot
  rw [shown, h.owner, hslot, Option.bind_some, hframe, Option.map_some]

section Loaded

variable {round : ℚ → ℚ} {source : CGImageSource CGImage} {frames : List (TimedFrame CGImage)}
  (hsource : List.Forall₂ (Holds round) source frames)

include hsource

/-- The images that decode are those of the frames. -/
theorem filterMap_image_of_holds :
    source.filterMap SourceFrame.image = frames.map TimedFrame.image := by
  induction hsource with
  | nil => rfl
  | cons hframe _ ih => rw [List.filterMap_cons_some hframe.1, ih, List.map_cons]

/-- Every frame of the source decodes. -/
theorem isSome_image_of_holds : ∀ sourceFrame ∈ source, sourceFrame.image.isSome := by
  induction hsource with
  | nil => simp
  | cons hframe _ ih => exact List.forall_mem_cons.mpr ⟨by rw [hframe.1]; rfl, ih⟩

/-- The loader computes the delays of the frames. -/
theorem truncates_of_holds : Truncates round source (delays frames) := by
  rw [Truncates, delays, List.forall₂_map_right_iff]
  exact hsource.imp fun _ _ hframe => hframe.2

end Loaded

/-- Every delay is positive. -/
theorem delays_pos (frames : List (TimedFrame CGImage)) : ∀ d ∈ delays frames, 0 < d := by
  intro d hd
  obtain ⟨frame, -, rfl⟩ := List.mem_map.mp hd
  exact frame.one_le

/-- Where the steps of all images add up to the total, the even step is that step. -/
theorem evenStep_eq {images : List CGImage} {g total : ℕ} (htotal : 0 < total)
    (hlength : images.length * g = total) : evenStep total images = g := by
  have hlength' : (g : ℝ) * images.length = total := by
    rw [mul_comm]
    exact_mod_cast hlength
  have hne : (images.length : ℝ) ≠ 0 := by
    intro h
    rw [h, mul_zero] at hlength'
    exact htotal.ne (by exact_mod_cast hlength')
  rw [evenStep, div_eq_iff hne, hlength']

/-- The images of the frames, each with the number of steps in its delay. -/
def counted (frames : List (TimedFrame CGImage)) (g : ℕ) : List (CGImage × ℕ) :=
  frames.map fun frame => (frame.image, frame.delay / g)

/-- The loader pairs the images with these numbers. -/
theorem zip_eq_counted (frames : List (TimedFrame CGImage)) (g : ℕ) :
    (frames.map TimedFrame.image).zip ((delays frames).map (· / g)) = counted frames g := by
  rw [delays, List.map_map, List.zip_map']
  rfl

theorem map_snd_counted (frames : List (TimedFrame CGImage)) (g : ℕ) :
    (counted frames g).map Prod.snd = (delays frames).map (· / g) := by
  rw [counted, delays, List.map_map, List.map_map]
  rfl

/-- The steps of a common divisor add up to the total. -/
theorem length_expand_counted {frames : List (TimedFrame CGImage)} {g : ℕ}
    (h : ∀ d ∈ delays frames, g ∣ d) :
    (expand (counted frames g)).length * g = (delays frames).sum := by
  rw [length_expand, map_snd_counted, sum_map_div h]

/-- Repeating the frames by the greatest common divisor of their delays keeps their timing. -/
theorem uniformTiming_expand (round : ℚ → ℚ) {frames : List (TimedFrame CGImage)}
    (hne : frames ≠ []) :
    UniformTiming round frames (commonStep (delays frames))
      { images := expand (counted frames (commonStep (delays frames)))
        duration := round (round (delays frames).sum / 1000) } := by
  have hdvd : ∀ d ∈ delays frames, commonStep (delays frames) ∣ d := fun d hd => commonStep_dvd hd
  obtain ⟨frame, hmem⟩ := List.exists_mem_of_ne_nil frames hne
  have hdelay : frame.delay ∈ delays frames := List.mem_map_of_mem hmem
  have hpos : 0 < commonStep (delays frames) := commonStep_pos hdelay frame.one_le
  have htotal : 0 < (delays frames).sum :=
    Nat.lt_of_lt_of_le frame.one_le (List.le_sum_of_mem hdelay)
  have hlength := length_expand_counted hdvd
  refine ⟨isGreatest_commonStep hpos, ?_, hlength, rfl, ?_, ?_, ?_⟩
  · rw [expand, counted, List.flatMap_map]
  · intro k
    rw [getElem?_expand_eq, map_snd_counted]
    simp only [counted, List.getElem?_map, Option.map_map]
    rfl
  · rw [evenStep_eq htotal hlength]
    exact exact_slots hpos hdvd
  · exact fun indices step hstep hexact => hexact.step_le hstep hpos

/-- The loader keeps the timing of the frames: they are repeated by the greatest common divisor of
the delays that it computes, and every frame is on screen for its own time. -/
theorem animatedImageWithSource_uniformTiming (round : ℚ → ℚ) {source : CGImageSource CGImage}
    {frames : List (TimedFrame CGImage)} (hne : frames ≠ [])
    (hsource : List.Forall₂ (Holds round) source frames)
    (htotal : ((delays frames).sum : ℤ) ≤ intMax) :
    ∃ (g : ℕ) (animation : AnimatedImage CGImage),
      gcdForArray ((delays frames).map Nat.cast) = .ok (g : ℤ) ∧
      animatedImageWithSource round source = .ok animation ∧
      UniformTiming round frames g animation := by
  have hms := truncates_of_holds hsource
  refine ⟨commonStep (delays frames), _, ?_, ?_, uniformTiming_expand round hne⟩
  · exact gcdForArray_natCast hms.le_intMax (by simpa [delays] using hne) (delays_pos frames)
  · rw [animatedImageWithSource_eq hms (isSome_image_of_holds hsource) (delays_pos frames) htotal,
      filterMap_image_of_holds hsource, zip_eq_counted]
    rfl

/-! ## Delays in doubles -/

/-- A frame of a source that decodes to the image and has the double nearest to the delay in its GIF
dictionary. -/
def TimedFrame.encoded (frame : TimedFrame CGImage) : SourceFrame CGImage :=
  SourceFrame.lasting (some frame.image) (toDouble (frame.delay / 1000))

/-- Frames of 30 and of 50 milliseconds. -/
def redGreen : List (TimedFrame String) := [⟨"red", 30, by decide⟩, ⟨"green", 50, by decide⟩]

/-- The loader keeps the timing of frames of 30 and of 50 milliseconds. -/
theorem uniformTiming_redGreen :
    ∃ (g : ℕ) (animation : AnimatedImage String),
      gcdForArray ((delays redGreen).map Nat.cast) = .ok (g : ℤ) ∧
      animatedImageWithSource toDouble (redGreen.map TimedFrame.encoded) = .ok animation ∧
      UniformTiming toDouble redGreen g animation :=
  animatedImageWithSource_uniformTiming toDouble (by simp [redGreen])
    (.cons ⟨rfl, by decide +kernel⟩ (.cons ⟨rfl, by decide +kernel⟩ .nil)) (by decide)

/-- Frames of 2010 and of 10 milliseconds. -/
def inexact : List (TimedFrame String) := [⟨"red", 2010, by decide⟩, ⟨"green", 10, by decide⟩]

/-- Two frames whose milliseconds are values of `Int`, and whose total is not. -/
def overlong : List (TimedFrame String) :=
  [⟨"red", 6 * 10 ^ 18, by decide⟩, ⟨"green", 6 * 10 ^ 18, by decide⟩]

/-- The loader computes a delay of 2009 milliseconds for the first of the two frames. -/
theorem truncates_inexact :
    Truncates toDouble (inexact.map TimedFrame.encoded) [2009, 10] :=
  .cons (by decide +kernel) (.cons (by decide +kernel) .nil)

/-- A delay of 2010 milliseconds loses one of them, and its animation has 2019 images and not 202,
and two delays whose total overflows end the program. -/
theorem not_uniformTiming_inexact_and_overlong :
    (∃ animation, animatedImageWithSource toDouble (inexact.map TimedFrame.encoded) = .ok animation ∧
      animation.images.length = 2019 ∧ ∀ g, ¬ UniformTiming toDouble inexact g animation) ∧
    List.Forall₂ (Holds toDouble) (overlong.map TimedFrame.encoded) overlong ∧
    animatedImageWithSource toDouble (overlong.map TimedFrame.encoded) = .error .overflow := by
  have hholds : List.Forall₂ (Holds toDouble) (overlong.map TimedFrame.encoded) overlong :=
    .cons ⟨rfl, by decide +kernel⟩ (.cons ⟨rfl, by decide +kernel⟩ .nil)
  have hdecodes : ∀ frame ∈ inexact.map TimedFrame.encoded, frame.image.isSome := by
    simp [inexact, TimedFrame.encoded, SourceFrame.lasting]
  have hload := animatedImageWithSource_eq truncates_inexact hdecodes (by decide) (by decide)
  -- the common step of 2009 and 10 is one
  have himages : (expand (((inexact.map TimedFrame.encoded).filterMap SourceFrame.image).zip
      (([2009, 10] : List ℕ).map (· / commonStep [2009, 10])))).length = 2019 := by
    rw [length_expand]
    decide +kernel
  refine ⟨⟨_, hload, himages, fun g h => ?_⟩, hholds,
    animatedImageWithSource_overflow (truncates_of_holds hholds) (by decide)⟩
  -- 2019 images cannot share 2020 milliseconds in whole ones
  have hlength : 2019 * g = 2020 := himages ▸ h.length
  omega

end LearnCode.GIF
