import LearnCode.Library.Reuse
import LearnCode.View.Cells

/-!
# Cells that are reused

A table gives a cell that has left the screen to another row. What the configuration of the row does
not write is still there from the rows before: the image views whose URL does not parse, the labels
of a chat row whose thread has no message, and the mark of a long press. A cell shows only its own
row when its configuration writes everything that an earlier one may have written.

## Main definitions

* `Foundation.Parses`: a string is there and is a URL;
* `Row.HasPreview`: the labels of the preview are written for a row;
* `SenderUpdate`: what happens to a `SenderUserCell`.

## Main results

* `forgets_iff_written`: when the cells of the four kinds forget the rows before their last one.
-/

namespace LearnCode

open Reuse ChatListViewController

/-- There is a string, and `URL(string:)` makes a URL of it. -/
def Foundation.Parses (F : Foundation) (string : Option String) : Prop := string.bind F.url ≠ none

/-- The labels of the preview are written for the row: its thread has not been delivered, or has a
message. -/
def ChatListViewController.Row.HasPreview (row : Row) : Prop :=
  ∀ senderMessages, row.senderMessages = some senderMessages → senderMessages.messages ≠ []

/-- What happens to a `SenderUserCell`: its table configures it, or a long press marks it. -/
inductive SenderUpdate : Type where
  | configureSenderCell (photoURL : Option URL) (message : MessageModel)
  | messageTapRecognizer
deriving DecidableEq

/-- The photo that an update sets. -/
def SenderUpdate.photoURL : SenderUpdate → Option URL
  | configureSenderCell photoURL _ => photoURL
  | messageTapRecognizer => none

/-- The photo that was set last in a history. -/
def lastPhotoURL (history : List SenderUpdate) : Option URL :=
  history.reverse.findSome? SenderUpdate.photoURL

/-- A `SenderUserCell` after an update. -/
def SenderUserCell.update (F : Foundation) : SenderUpdate → SenderUserCell → SenderUserCell
  | .configureSenderCell photoURL message => configureSenderCell F photoURL message
  | .messageTapRecognizer => select

/-! ## Image views -/

namespace Foundation

variable {F : Foundation} {string : Option String}

/-- The image of a URL does not depend on what was shown before. -/
theorem Parses.setImage_eq (h : F.Parses string) (former former' : Option URL) :
    F.setImage string former = F.setImage string former' := by
  obtain ⟨url, hurl⟩ := Option.ne_none_iff_exists'.mp h
  simp only [setImage, hurl]

/-- An image view that is the same, whether it was set before or not, is set to a URL. -/
theorem parses_of_setImage_eq {url : URL}
    (h : F.setImage string (some url) = F.setImage string none) : F.Parses string := by
  intro hnone
  simp only [setImage, hnone] at h
  cases h

end Foundation

/-! ## The cells -/

variable (F : Foundation) {s : String} {url : URL}

/-- The labels of a row with a preview are those of one message, whatever they were before. -/
theorem exists_cellForRowAt_eq {row : Row} (h : row.HasPreview) :
    ∃ message, ∀ cell, cellForRowAt F row cell =
      (cell.configureUserList F row.user).displayLastConversations F message := by
  cases hthread : row.senderMessages with
  | none => exact ⟨⟨"", "", "", "", 0⟩, fun cell => by simp only [cellForRowAt, hthread]⟩
  | some senderMessages =>
    obtain ⟨lastMessage, hlast⟩ := Option.isSome_iff_exists.mp
      (List.getLast?_isSome.mpr (h senderMessages hthread))
    exact ⟨lastMessage, fun cell => by simp only [cellForRowAt, hthread, hlast]⟩

/-- The labels of a row without a preview are kept. -/
theorem cellForRowAt_of_not_hasPreview {row : Row} (h : ¬row.HasPreview) (cell : ChatUserListCell) :
    cellForRowAt F row cell = cell.configureUserList F row.user := by
  simp only [Row.HasPreview, not_forall, not_not] at h
  obtain ⟨senderMessages, hthread, hnil⟩ := h
  simp only [cellForRowAt, hthread, hnil, List.getLast?_nil]

/-- The profile picture of a row. -/
theorem profileImage_cellForRowAt (row : Row) (cell : ChatUserListCell) :
    (cellForRowAt F row cell).profileImage =
      F.setImage row.user.profileImageURL cell.profileImage := by
  by_cases h : row.HasPreview
  · obtain ⟨message, heq⟩ := exists_cellForRowAt_eq F h
    rw [heq]
    rfl
  · rw [cellForRowAt_of_not_hasPreview F h]
    rfl

/-- A `ChatUserListCell` forgets the rows before a row with a profile picture and a preview. -/
theorem forgets_cellForRowAt_iff (hurl : F.url s = some url) (row : Row) :
    Forgets (cellForRowAt F) ChatUserListCell.nib row ↔
      F.Parses row.user.profileImageURL ∧ row.HasPreview := by
  constructor
  · intro h
    -- the cell has shown a user with a picture and without messages
    have heq := h.update_eq [⟨"", [], ⟨none, none, none, none, some s⟩⟩]
    have hused : reused (cellForRowAt F) ChatUserListCell.nib
        [⟨"", [], ⟨none, none, none, none, some s⟩⟩] =
          ⟨some url, "", F.convertTimestampToTime 0, "", "Seen"⟩ := by
      change cellForRowAt F ⟨"", [], ⟨none, none, none, none, some s⟩⟩ _ = _
      simp [cellForRowAt, Row.senderMessages, ChatUserListCell.configureUserList,
        ChatUserListCell.displayLastConversations, Foundation.setImage, hurl]
    rw [hused] at heq
    constructor
    · have himage := congrArg ChatUserListCell.profileImage heq
      rw [profileImage_cellForRowAt, profileImage_cellForRowAt] at himage
      exact Foundation.parses_of_setImage_eq himage
    · by_contra hnot
      rw [cellForRowAt_of_not_hasPreview F hnot, cellForRowAt_of_not_hasPreview F hnot] at heq
      have hstatus : "Seen" = "" := congrArg ChatUserListCell.imgActiveStatus heq
      exact absurd hstatus (by decide)
  · rintro ⟨hparses, hpreview⟩
    obtain ⟨message, heq⟩ := exists_cellForRowAt_eq F hpreview
    refine forgets_of_overwrites fun cell cell' => ?_
    rw [heq, heq, ChatUserListCell.configureUserList, ChatUserListCell.configureUserList,
      hparses.setImage_eq cell.profileImage cell'.profileImage]
    rfl

/-- An `ActiveUserCell` forgets the users before one with a profile picture. -/
theorem forgets_configureActiveUserCell_iff (hurl : F.url s = some url) (user : UserResponse) :
    Forgets (ActiveUserCell.configureActiveUserCell F) ActiveUserCell.nib user ↔
      F.Parses user.profileImageURL := by
  constructor
  · intro h
    -- the cell has shown a user with a picture
    have heq := h.update_eq [⟨none, none, none, none, some s⟩]
    have hused : reused (ActiveUserCell.configureActiveUserCell F) ActiveUserCell.nib
        [⟨none, none, none, none, some s⟩] = ⟨some url, ""⟩ := by
      simp [reused, ActiveUserCell.configureActiveUserCell, Foundation.setImage, hurl]
    rw [hused] at heq
    exact Foundation.parses_of_setImage_eq (congrArg ActiveUserCell.profileImage heq)
  · intro hparses
    refine forgets_of_overwrites fun cell cell' => ?_
    rw [ActiveUserCell.configureActiveUserCell, ActiveUserCell.configureActiveUserCell,
      hparses.setImage_eq cell.profileImage cell'.profileImage]

/-- A `HomeCell` forgets the posts before one with both pictures. -/
theorem forgets_configureMediaCell_iff (hurl : F.url s = some url) (post : MediaPostModel) :
    Forgets (HomeCell.configureMediaCell F) HomeCell.nib post ↔
      F.Parses post.userImage ∧ F.Parses post.postImage := by
  constructor
  · intro h
    -- the cell has shown a post with both pictures
    have heq := h.update_eq [⟨none, none, none, some s, none, some s⟩]
    have hused : reused (HomeCell.configureMediaCell F) HomeCell.nib
        [⟨none, none, none, some s, none, some s⟩] = ⟨some url, "", "", some url⟩ := by
      simp [reused, HomeCell.configureMediaCell, Foundation.setImage, hurl]
    rw [hused] at heq
    exact ⟨Foundation.parses_of_setImage_eq (congrArg HomeCell.imgUserProfile heq),
      Foundation.parses_of_setImage_eq (congrArg HomeCell.imgPost heq)⟩
  · rintro ⟨hprofile, hpost⟩
    refine forgets_of_overwrites fun cell cell' => ?_
    rw [HomeCell.configureMediaCell, HomeCell.configureMediaCell,
      hprofile.setImage_eq cell.imgUserProfile cell'.imgUserProfile,
      hpost.setImage_eq cell.imgPost cell'.imgPost]

/-- An update sets a photo, or leaves the last one. -/
theorem lastPhotoURL_append_singleton (history : List SenderUpdate) (e : SenderUpdate) :
    lastPhotoURL (history ++ [e]) = e.photoURL.orElse fun _ => lastPhotoURL history := by
  rw [lastPhotoURL, List.reverse_append, List.reverse_singleton, List.singleton_append,
    List.findSome?_cons]
  cases e.photoURL <;> rfl

/-- The mark and the photo of a `SenderUserCell` after a history. -/
theorem reused_senderUserCell (history : List SenderUpdate) :
    (reused (SenderUserCell.update F) SenderUserCell.nib history).imgSelection =
        (if SenderUpdate.messageTapRecognizer ∈ history then some "deleteTransparent_ic"
        else none) ∧
      (reused (SenderUserCell.update F) SenderUserCell.nib history).imgSelectionIsHidden = false ∧
      (reused (SenderUserCell.update F) SenderUserCell.nib history).imgSenderProfile =
        lastPhotoURL history := by
  induction history using List.reverseRecOn with
  | nil => exact ⟨rfl, rfl, rfl⟩
  | append_singleton history e ih =>
    obtain ⟨hselection, hhidden, hprofile⟩ := ih
    rw [reused_append_singleton, lastPhotoURL_append_singleton, ← hprofile]
    cases e with
    -- a configuration leaves the mark alone
    | configureSenderCell photoURL message => exact ⟨hselection.trans (by simp), hhidden, rfl⟩
    | messageTapRecognizer =>
      exact ⟨by simp [SenderUserCell.update, SenderUserCell.select], rfl, rfl⟩

/-- Two histories of a `SenderUserCell` that end with the same row give the same if both contain a
long press or neither does, and the last photo of both is the same, unless the row sets its own. -/
theorem reused_configureSenderCell_eq_iff (photoURL : Option URL) (message : MessageModel)
    (history history' : List SenderUpdate) :
    reused (SenderUserCell.update F) SenderUserCell.nib
          (history ++ [.configureSenderCell photoURL message]) =
        reused (SenderUserCell.update F) SenderUserCell.nib
          (history' ++ [.configureSenderCell photoURL message]) ↔
      (SenderUpdate.messageTapRecognizer ∈ history ↔
          SenderUpdate.messageTapRecognizer ∈ history') ∧
        (photoURL = none → lastPhotoURL history = lastPhotoURL history') := by
  obtain ⟨hselection, hhidden, hprofile⟩ := reused_senderUserCell F history
  obtain ⟨hselection', hhidden', hprofile'⟩ := reused_senderUserCell F history'
  rw [reused_append_singleton, reused_append_singleton, ← hprofile, ← hprofile']
  simp only [SenderUserCell.update, SenderUserCell.configureSenderCell, SenderUserCell.mk.injEq,
    hselection, hselection', hhidden, hhidden']
  -- the two marks and the photo of the row decide what is left to compare
  by_cases hmark : SenderUpdate.messageTapRecognizer ∈ history <;>
    by_cases hmark' : SenderUpdate.messageTapRecognizer ∈ history' <;>
    cases photoURL <;> simp [hmark, hmark']

/-- A reused cell shows only its last row, whatever it has shown before, exactly when: the user of a
`ChatUserListCell` has an image URL, and the thread has not been delivered or has a message; the
user of an `ActiveUserCell` has an image URL; the post of a `HomeCell` has both its URLs. Two
histories of a `SenderUserCell` that end with the same row show the same exactly when both contain
a long press or neither does, and the last photo of both is the same, unless the row sets one. -/
theorem forgets_iff_written (hurl : ∃ s, F.url s ≠ none) :
    (∀ row, Forgets (cellForRowAt F) ChatUserListCell.nib row ↔
      F.Parses row.user.profileImageURL ∧ row.HasPreview) ∧
    (∀ user, Forgets (ActiveUserCell.configureActiveUserCell F) ActiveUserCell.nib user ↔
      F.Parses user.profileImageURL) ∧
    (∀ post, Forgets (HomeCell.configureMediaCell F) HomeCell.nib post ↔
      F.Parses post.userImage ∧ F.Parses post.postImage) ∧
    ∀ photoURL message history history',
      reused (SenderUserCell.update F) SenderUserCell.nib
          (history ++ [.configureSenderCell photoURL message]) =
        reused (SenderUserCell.update F) SenderUserCell.nib
          (history' ++ [.configureSenderCell photoURL message]) ↔
      (SenderUpdate.messageTapRecognizer ∈ history ↔
          SenderUpdate.messageTapRecognizer ∈ history') ∧
        (photoURL = none → lastPhotoURL history = lastPhotoURL history') := by
  obtain ⟨s, hs⟩ := hurl
  obtain ⟨url, hurl⟩ := Option.ne_none_iff_exists'.mp hs
  exact ⟨forgets_cellForRowAt_iff F hurl, forgets_configureActiveUserCell_iff F hurl,
    forgets_configureMediaCell_iff F hurl, reused_configureSenderCell_eq_iff F⟩

/-- A phone on which every string but the empty one is a URL. -/
def phone : Foundation := ⟨fun s => if s = "" then none else some ⟨s⟩, fun _ => "9:41 AM"⟩

/-- A cell of the feed shows only a post with both images. -/
theorem forgets_iff_written_mediaPost :
    Forgets (HomeCell.configureMediaCell phone) HomeCell.nib
      ⟨some "u", some "text", some "name", some "post.jpg", none, some "profile.jpg"⟩ := by
  have hurl : ∃ s, phone.url s ≠ none := ⟨"profile.jpg", Option.some_ne_none _⟩
  exact ((forgets_iff_written phone hurl).2.2.1 _).mpr
    ⟨Option.some_ne_none _, Option.some_ne_none _⟩

/-- The row of a user with a picture, to whom a message has been sent. -/
def writtenRow : Row :=
  ⟨"me", [⟨"a_me", [⟨"m", "me", "a", "see you", 1⟩]⟩],
    ⟨some "a", some "A", none, none, some "a.jpg"⟩⟩

/-- The row of a user without a picture, in whose thread there are no messages. -/
def unwrittenRow : Row := ⟨"me", [⟨"b_me", []⟩], ⟨some "b", some "B", none, none, none⟩⟩

/-- The second row shows the picture and the message of the first. -/
theorem not_forgets_unwrittenRow :
    reused (cellForRowAt phone) ChatUserListCell.nib [writtenRow, unwrittenRow] =
        ⟨some ⟨"a.jpg"⟩, "B", "9:41 AM", "see you", "Seen"⟩ ∧
      ¬Forgets (cellForRowAt phone) ChatUserListCell.nib unwrittenRow := by
  have hshown : reused (cellForRowAt phone) ChatUserListCell.nib [writtenRow, unwrittenRow] =
      ⟨some ⟨"a.jpg"⟩, "B", "9:41 AM", "see you", "Seen"⟩ := by decide
  refine ⟨hshown, fun h => ?_⟩
  have hfresh := (h [writtenRow] []).symm.trans hshown
  revert hfresh
  decide

end LearnCode
