import LearnCode.APIManager.MessageManager

/-!
# Cells

What the cells of the chat list, of the active users, of the feed and of a conversation display,
and what their configuration writes. Colours, fonts and borders, which are constants, are left
out.

## Main definitions

* `Foundation`: what the cells use of Foundation;
* `ChatUserListCell`, `ActiveUserCell`, `HomeCell` and `SenderUserCell`: the displayed content;
* `ChatListViewController.cellForRowAt`: the configuration of a row of the chat list.
-/

namespace LearnCode

/-- A `URL`. -/
structure URL where
  absoluteString : String
deriving DecidableEq

/-- What the cells use of Foundation. -/
structure Foundation where
  /-- `URL(string:)`. -/
  url : String → Option URL
  /-- `convertTimestampToTime`: the hour and the minute, in the time zone and locale of the
  phone. -/
  convertTimestampToTime : TimeInterval → String

/-- What an image view is set to by `if let s = string, let url = URL(string: s)`: the image of
the URL, or what it showed before. -/
def Foundation.setImage (F : Foundation) (string : Option String) (former : Option URL) :
    Option URL :=
  match string.bind F.url with
  | some url => some url
  | none => former

/-- `ChatUserListCell`. An image view shows the image of a URL, or that of the nib. -/
structure ChatUserListCell where
  profileImage : Option URL
  lblUsername : String
  lblActiveTiming : String
  lblLastMessage : String
  imgActiveStatus : String
deriving DecidableEq

namespace ChatUserListCell

/-- The cell of `ChatUserListCell.xib`. -/
def nib : ChatUserListCell := ⟨none, "", "", "", ""⟩

/-- `configureUserList`. -/
def configureUserList (F : Foundation) (userData : UserResponse) (cell : ChatUserListCell) :
    ChatUserListCell :=
  { cell with
    profileImage := F.setImage userData.profileImageURL cell.profileImage
    lblUsername := userData.fullName.getD "" }

/-- `displayLastConversations`. -/
def displayLastConversations (F : Foundation) (message : MessageModel) (cell : ChatUserListCell) :
    ChatUserListCell :=
  { cell with
    lblActiveTiming := F.convertTimestampToTime message.timestamp
    lblLastMessage := message.content
    imgActiveStatus := "Seen" }

end ChatUserListCell

/-- `ActiveUserCell`. -/
structure ActiveUserCell where
  profileImage : Option URL
  lblUserName : String
deriving DecidableEq

namespace ActiveUserCell

/-- The cell of `ActiveUserCell.xib`. -/
def nib : ActiveUserCell := ⟨none, "Label"⟩

/-- `configureActiveUserCell`. -/
def configureActiveUserCell (F : Foundation) (activeuser : UserResponse) (cell : ActiveUserCell) :
    ActiveUserCell where
  profileImage := F.setImage activeuser.profileImageURL cell.profileImage
  lblUserName := activeuser.fullName.getD ""

end ActiveUserCell

/-- `HomeCell`. -/
structure HomeCell where
  imgUserProfile : Option URL
  lblUsername : String
  lblDescription : String
  imgPost : Option URL
deriving DecidableEq

namespace HomeCell

/-- The cell of `HomeCell.xib`. -/
def nib : HomeCell := ⟨none, "Label", "Label", none⟩

/-- `configureMediaCell`. -/
def configureMediaCell (F : Foundation) (mediaModel : MediaPostModel) (cell : HomeCell) :
    HomeCell where
  imgUserProfile := F.setImage mediaModel.userImage cell.imgUserProfile
  lblUsername := mediaModel.fullName.getD ""
  lblDescription := mediaModel.content.getD ""
  imgPost := F.setImage mediaModel.postImage cell.imgPost

end HomeCell

/-- `SenderUserCell`. -/
structure SenderUserCell where
  imgSenderProfile : Option URL
  lblTextMessage : String
  lblTimeStamp : String
  /-- The name of `imgSelection.image`. -/
  imgSelection : Option String
  /-- `imgSelection.isHidden`. -/
  imgSelectionIsHidden : Bool
deriving DecidableEq

namespace SenderUserCell

/-- The cell of `SenderUserCell.xib`. -/
def nib : SenderUserCell := ⟨none, "Label", "Label", none, false⟩

/-- `configureSenderCell`, with the `photoURL` of the signed-in user. -/
def configureSenderCell (F : Foundation) (photoURL : Option URL) (message : MessageModel)
    (cell : SenderUserCell) : SenderUserCell :=
  { cell with
    imgSenderProfile := photoURL.orElse fun _ => cell.imgSenderProfile
    lblTextMessage := message.content
    lblTimeStamp := F.convertTimestampToTime message.timestamp }

/-- What `messageTapRecognizer` does to the cell under a long press. -/
def select (cell : SenderUserCell) : SenderUserCell :=
  { cell with imgSelection := some "deleteTransparent_ic", imgSelectionIsHidden := false }

end SenderUserCell

namespace ChatListViewController

/-- The data of a row of the chat list. -/
structure Row where
  /-- The id of the signed-in user, or the empty string. -/
  currentUser : String
  lastMessages : List SenderMessages
  user : UserResponse

/-- `lastMessages.first(where:)` of `tableView(_:cellForRowAt:)`: the thread of the current user
with the user of the row. -/
def Row.senderMessages (row : Row) : Option SenderMessages :=
  let senderReceiverID := MessageManager.threadKey row.currentUser (row.user.userId.getD "")
  row.lastMessages.find? fun senderMessages =>
    senderMessages.senderReceiverId == senderReceiverID

/-- `tableView(_:cellForRowAt:)` in the section of the users. -/
def cellForRowAt (F : Foundation) (row : Row) (cell : ChatUserListCell) : ChatUserListCell :=
  let cell := cell.configureUserList F row.user
  match row.senderMessages with
  | some senderMessages =>
    match senderMessages.messages.getLast? with
    | some lastMessage => cell.displayLastConversations F lastMessage
    -- the labels are left alone here
    | none => cell
  | none => cell.displayLastConversations F ⟨"", "", "", "", 0⟩

end ChatListViewController

end LearnCode
