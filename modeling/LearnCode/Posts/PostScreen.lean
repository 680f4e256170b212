import LearnCode.APIManager.Endings
import LearnCode.Library.Transition

/-!
# The picture of a new post

`PostViewController` keeps the picture of a post twice: `imgMedia` shows it, and `pickedImage` is
what a press of Post gives to `uploadPost`. Cancelling hides `imgMedia` and leaves `pickedImage`
alone. The posted picture is the one that is shown in the runs in which Post is not pressed between
the cancellation of a picture and the pick of another one.

## Main definitions

* `Screen` and `Action`: the views and the picked image, with what the user can do;
* `machine`: the screen as a state machine;
* `Upload.UploadsPhoto`: a call of `uploadPost` sends a file to the storage;
* `PostsShown`: a call posts the picture that is visible, or none;
* `NotCancelled`: Post is not pressed after the cancellation of a picture.

## Main results

* `Consistent.next`: what the handlers keep between the views and the picked image;
* `postsShown_iff_notCancelled`: the presses of Post in a run post what is shown exactly when they
  meet the condition.
-/

namespace LearnCode

open Transition MessageManager

namespace Upload

/-- The call asks the storage to take a file. -/
def UploadsPhoto (u : Upload) : Prop :=
  ∃ p ∈ u.body.issued, ∃ reference uploadData, p.1 = .putData reference uploadData

/-- A call uploads a photo if its image can be encoded. -/
theorem uploadsPhoto_iff (u : Upload) : u.UploadsPhoto ↔ u.encoded ≠ none := by
  unfold UploadsPhoto body uploadPost
  change _ ↔ u.imageUrl.bind UIImage.jpegData ≠ none
  cases u.imageUrl.bind UIImage.jpegData with
  | some uploadData => simp
  | none =>
    -- what is issued here is the write of the record
    unfold savePost
    cases child ["posts"] u.userId <;> simp

end Upload

namespace PostViewController

/-- The screen of a new post. -/
structure Screen where
  currentUserData : Option LoggedUserModel
  pickedImage : UIImage
  /-- `imgMedia.image`. -/
  imgMediaImage : Option UIImage
  /-- `imgMedia.isHidden`. -/
  imgMediaIsHidden : Bool
  /-- `bttnMediaCancel.isHidden`. -/
  bttnMediaCancelIsHidden : Bool
  /-- History: the picture that was shown when it was cancelled, until another one is picked. -/
  cancelled : Option UIImage

/-- What the user does. -/
inductive Action : Type where
  /-- The picker is opened. -/
  | onClickMediaAction
  /-- The picker returns, with the image of `info[.originalImage]` if there is one. -/
  | didFinishPickingMedia (originalImage : Option UIImage)
  /-- The selected media is cancelled. -/
  | onClickMediaCancelAction
  /-- Post is pressed, with the text of the post. The name of the file and the key of the post are
  those that would be drawn for it. -/
  | onClickPostAction (postTextField : Option String) (uuidString : String) (autoId : Key)

/-- The screen after `configureInitViewLayout`. `UIImage()` has no bitmap, and the image of the
hidden view is that of the storyboard. -/
def configureInitViewLayout (currentUserData : Option LoggedUserModel)
    (imgMediaImage : Option UIImage) : Screen where
  currentUserData := currentUserData
  pickedImage := ⟨none⟩
  imgMediaImage := imgMediaImage
  imgMediaIsHidden := true
  bttnMediaCancelIsHidden := true
  cancelled := none

/-- `imagePickerController(_:didFinishPickingMediaWithInfo:)`. -/
def didFinishPickingMedia (originalImage : Option UIImage) (s : Screen) : Screen :=
  match originalImage with
  | none => s
  | some image =>
    { s with
      pickedImage := image
      imgMediaImage := some image
      imgMediaIsHidden := false
      bttnMediaCancelIsHidden := false
      cancelled := none }

/-- `onClickMediaCancelAction`. -/
def onClickMediaCancelAction (s : Screen) : Screen :=
  { s with
    imgMediaIsHidden := true
    bttnMediaCancelIsHidden := true
    cancelled := if s.imgMediaIsHidden then s.cancelled else s.imgMediaImage }

/-- The call of `uploadPost` by `onClickPostAction`, if there is user data. -/
def onClickPostAction (postTextField : Option String) (uuidString : String) (autoId : Key)
    (s : Screen) : Option Upload :=
  s.currentUserData.map fun userData =>
    { uuidString := uuidString
      autoId := autoId
      userId := userData.userId.getD ""
      userName := userData.fullName.getD ""
      userEmail := userData.userEmail.getD ""
      profile := userData.profileImageUrl.getD ""
      imageUrl := some s.pickedImage
      content := postTextField.getD "" }

/-- The state after an action. -/
def next (s : Screen) : Action → Option Screen
  | .onClickMediaAction => some s
  | .didFinishPickingMedia originalImage => some (didFinishPickingMedia originalImage s)
  | .onClickMediaCancelAction => some (onClickMediaCancelAction s)
  | .onClickPostAction _ _ _ => some s

/-- The call of `uploadPost` that an action makes. -/
def uploaded (s : Screen) : Action → Option Upload
  | .onClickPostAction postTextField uuidString autoId =>
    onClickPostAction postTextField uuidString autoId s
  | _ => none

/-- The screen from its opening on. -/
def machine : Machine Screen Action where
  init s := ∃ currentUserData imgMediaImage,
    s = configureInitViewLayout currentUserData imgMediaImage
  next := next

/-- The call posts the picture that is visible in `imgMedia`, and no photo if `imgMedia` is
hidden. -/
structure PostsShown (s : Screen) (u : Upload) : Prop where
  shown : s.imgMediaIsHidden = false → u.imageUrl = s.imgMediaImage
  hidden : s.imgMediaIsHidden = true → ¬ u.UploadsPhoto

/-- Post is pressed, with user data, only if no picture has been cancelled since the last one was
picked, or the cancelled one cannot be encoded. -/
def NotCancelled (s : Screen) (a : Action) : Prop :=
  ∀ postTextField uuidString autoId, a = .onClickPostAction postTextField uuidString autoId →
    s.currentUserData ≠ none → ∀ image, s.cancelled = some image → image.jpegData = none

/-! ## The views and the picked image -/

/-- What the handlers keep between the views and the picked image. -/
structure Consistent (s : Screen) : Prop where
  /-- The cancel button is there with the picture. -/
  button : s.bttnMediaCancelIsHidden = s.imgMediaIsHidden
  /-- A picture that is shown is the picked one, and is not cancelled. -/
  shown : s.imgMediaIsHidden = false → s.imgMediaImage = some s.pickedImage ∧ s.cancelled = none
  /-- Without a picture the picked image is empty, unless it was cancelled. -/
  hidden : s.imgMediaIsHidden = true →
    s.cancelled = none ∧ s.pickedImage.jpegData = none ∨ s.cancelled = some s.pickedImage

variable {s s' : Screen}

/-- The screen opens without a picture. -/
theorem consistent_of_init (h : machine.init s) : Consistent s := by
  obtain ⟨currentUserData, imgMediaImage, rfl⟩ := h
  -- `UIImage()` cannot be encoded
  exact ⟨rfl, nofun, fun _ => .inl ⟨rfl, rfl⟩⟩

/-- Each handler keeps the views and the picked image consistent. -/
theorem Consistent.next (h : Consistent s) {a : Action}
    (hnext : PostViewController.next s a = some s') : Consistent s' := by
  cases a with
  | onClickMediaAction =>
    obtain rfl := Option.some.inj hnext
    exact h
  | didFinishPickingMedia originalImage =>
    obtain rfl := Option.some.inj hnext
    cases originalImage with
    | none => exact h
    | some image => exact ⟨rfl, fun _ => ⟨rfl, rfl⟩, nofun⟩
  | onClickMediaCancelAction =>
    obtain rfl := Option.some.inj hnext
    refine ⟨rfl, nofun, fun _ => ?_⟩
    cases hhidden : s.imgMediaIsHidden with
    | true => simpa [PostViewController.onClickMediaCancelAction, hhidden] using h.hidden hhidden
    | false =>
      -- the picture that is cancelled is the picked one
      right
      simp [PostViewController.onClickMediaCancelAction, hhidden, (h.shown hhidden).1]
  | onClickPostAction postTextField uuidString autoId =>
    obtain rfl := Option.some.inj hnext
    exact h

/-- On a consistent screen a press of Post posts what is shown exactly if no picture that can be
encoded has been cancelled. -/
theorem Consistent.postsShown_iff (h : Consistent s) {u : Upload}
    (himage : u.imageUrl = some s.pickedImage) :
    PostsShown s u ↔ ∀ image, s.cancelled = some image → image.jpegData = none := by
  have hphoto : u.UploadsPhoto ↔ s.pickedImage.jpegData ≠ none := by
    rw [Upload.uploadsPhoto_iff, Upload.encoded, himage, Option.bind_some]
  cases hhidden : s.imgMediaIsHidden with
  | false =>
    obtain ⟨hshown, hnone⟩ := h.shown hhidden
    -- the picked image is the one that is shown, and nothing is cancelled
    refine iff_of_true ⟨fun _ => himage.trans hshown.symm, ?_⟩ ?_
    · simp [hhidden]
    · simp [hnone]
  | true =>
    -- nothing is shown, so the picked image must upload no photo
    have hposts : PostsShown s u ↔ s.pickedImage.jpegData = none := by
      constructor
      · intro hposts
        have hno := hposts.hidden hhidden
        rwa [hphoto, not_not] at hno
      · intro hempty
        exact ⟨by simp [hhidden], fun _ hphoto' => hphoto.mp hphoto' hempty⟩
    rw [hposts]
    rcases h.hidden hhidden with ⟨hnone, hempty⟩ | hcancelled
    · simp [hnone, hempty]
    · simp [hcancelled]

/-- In a run of the screen every press of Post posts the picture that is shown, or no photo, exactly
when each press meets the condition. -/
theorem postsShown_iff_notCancelled {steps : List (Step Screen Action)} (hinit : machine.init s)
    (hrun : Run machine s steps s') :
    (∀ st ∈ steps, ∀ u, uploaded st.pre st.action = some u → PostsShown st.pre u) ↔
      ∀ st ∈ steps, NotCancelled st.pre st.action := by
  refine hrun.forall_iff (consistent_of_init hinit) (fun _ _ _ h _ hnext => h.next hnext) ?_
  intro s a s' h _
  cases a with
  | onClickPostAction postTextField uuidString autoId =>
    cases huser : s.currentUserData with
    -- without user data nothing is posted
    | none => simp [NotCancelled, uploaded, onClickPostAction, huser]
    | some userData =>
      simp only [uploaded, onClickPostAction, huser, Option.map_some, Option.some.injEq,
        forall_eq']
      rw [h.postsShown_iff rfl]
      constructor
      · intro hcancelled _ _ _ _ _
        exact hcancelled
      · intro hnot
        exact hnot _ _ _ rfl (by simp [huser])
  -- no other action posts anything
  | _ => exact iff_of_true nofun nofun

/-- A picture is picked and posted. -/
theorem postsShown_iff_notCancelled_picked :
    ∃ steps s', Run machine (configureInitViewLayout (some ⟨some "u", none, none, none⟩) none)
        steps s' ∧
      (∃ st ∈ steps, ∃ u, uploaded st.pre st.action = some u ∧ u.UploadsPhoto) ∧
      ∀ st ∈ steps, ∀ u, uploaded st.pre st.action = some u → PostsShown st.pre u := by
  have hrun : machine.execute (configureInitViewLayout (some ⟨some "u", none, none, none⟩) none)
      [.onClickMediaAction, .didFinishPickingMedia (some ⟨some [216]⟩),
        .onClickPostAction (some "look") "f" ⟨"k", by decide⟩] = some (_, _) := rfl
  refine ⟨_, _, Run.of_execute hrun, ?_, ?_⟩
  · refine ⟨_, List.mem_of_getElem? (i := 2) rfl, _, rfl, ?_⟩
    exact (Upload.uploadsPhoto_iff _).mpr (Option.some_ne_none _)
  · refine (postsShown_iff_notCancelled ⟨_, _, rfl⟩ (Run.of_execute hrun)).mpr ?_
    simp only [List.forall_mem_cons]
    exact ⟨nofun, nofun, fun _ _ _ _ _ => nofun, List.forall_mem_nil _⟩

/-- A picture is picked, cancelled and posted. -/
theorem not_postsShown_cancelledPicture :
    ∃ steps s s', Run machine s steps s' ∧ machine.init s ∧
      ∃ st ∈ steps, ∃ u, uploaded st.pre st.action = some u ∧
        st.pre.imgMediaIsHidden = true ∧ u.imageUrl = some ⟨some [255]⟩ ∧
        ¬ PostsShown st.pre u := by
  have hrun : machine.execute (configureInitViewLayout (some ⟨some "u", none, none, none⟩) none)
      [.onClickMediaAction, .didFinishPickingMedia (some ⟨some [255]⟩),
        .onClickMediaCancelAction, .onClickPostAction (some "text") "f" ⟨"key", by decide⟩] =
      some (_, _) := rfl
  refine ⟨_, _, _, Run.of_execute hrun, ⟨_, _, rfl⟩, _, List.mem_of_getElem? (i := 3) rfl, _, rfl,
    rfl, rfl, fun hposts => hposts.hidden rfl ?_⟩
  exact (Upload.uploadsPhoto_iff _).mpr (Option.some_ne_none _)

end PostViewController

end LearnCode
