import LearnCode.Firebase.Backend
import LearnCode.Model

/-!
# `MessageManager`

Threads and posts. The key that `childByAutoId` draws and the fresh name of an uploaded file
are arguments, as is the id of the signed-in user. `print` is left out.

## Main definitions

* `sendMessagesToUser` and `sendMessagesToAdmin`: the writers of a thread;
* `getAllConversations`, `observeConversations` and `fetchLastMessages`: its readers;
* `deleteUserConversations`: removal of messages;
* `uploadPost`: the writer of the feed.
-/

namespace LearnCode.MessageManager

variable {ρ : Type}

/-- The key of a thread: `[a, b].sorted().joined(separator: "_")`. -/
def threadKey (a b : String) : String := joined "_" (sorted [a, b])

/-- The dictionary that is stored for a message. -/
def messageData (message : MessageModel) : Value :=
  .dict [("senderId", .string message.senderId), ("receiverId", .string message.receiverId),
    ("content", .string message.content), ("timestamp", .double message.timestamp)]

/-- The common body of `sendMessagesToUser` and `sendMessagesToAdmin`. -/
def sendMessage (autoId : String) (message : MessageModel)
    (completion : Option NSError → Prog ρ) : Prog ρ :=
  let conversationId := threadKey message.senderId message.receiverId
  match child ["conversations"] conversationId with
  | none => .trap
  | some _ =>
    let messageId := autoId
    let messagePath := "conversations/" ++ conversationId ++ "/messages/" ++ messageId
    .issue (.updateChildValues [] [("/" ++ messagePath, messageData message)])
      (fun error => completion error) .done

/-- `sendMessagesToUser`. -/
def sendMessagesToUser (autoId : String) (message : MessageModel)
    (completion : Option NSError → Prog ρ) : Prog ρ :=
  sendMessage autoId message completion

/-- `sendMessagesToAdmin`. -/
def sendMessagesToAdmin (autoId : String) (message : MessageModel)
    (completion : Option NSError → Prog ρ) : Prog ρ :=
  sendMessage autoId message completion

/-- The record of a message, with the default of each field that is absent. -/
def messageModel (messageID : String) (message : List (String × Value)) : MessageModel where
  messageID := messageID
  senderId := ((message.lookup "senderId").bind Value.asString).getD ""
  receiverId := ((message.lookup "receiverId").bind Value.asString).getD ""
  content := ((message.lookup "content").bind Value.asString).getD ""
  timestamp := ((message.lookup "timestamp").bind Value.asTimeInterval).getD 0

/-- `(conversationData as? [String: Any])?["messages"] as? [String: Any]`. -/
def messagesData (conversationData : Value) : Option (List (String × Value)) :=
  conversationData.asDictionary.bind fun d => (d.lookup "messages").bind Value.asDictionary

/-- The nested loops of `getAllConversations` and `observeConversations`, which add to the
array `messages`. -/
def collectMessages (conversationPath : String) (conversations : List (String × Value))
    (messages : List MessageModel) : List MessageModel :=
  conversations.foldl (fun messages conversation =>
    match messagesData conversation.2 with
    | none => messages
    | some data =>
      data.foldl (fun messages entry =>
        match entry.2.asDictionary with
        | none => messages
        | some message =>
          -- any key that contains the pair's key passes
          if contains conversation.1 conversationPath then
            messages ++ [messageModel entry.1 message]
          else messages) messages) messages

/-- The closure of `getAllConversations` on a snapshot. -/
def getAllConversationsOnValue (conversationPath : String) (snapshot : Value)
    (completion : List MessageModel → Prog ρ) : Prog ρ :=
  if snapshot.exists_ then
    match snapshot.asDictionary with
    | some conversations =>
      completion (sortByTimestamp (collectMessages conversationPath conversations []))
    -- the cast has no `else`
    | none => .done
  else completion []

/-- `getAllConversations`. No block is given for a cancelled read. -/
def getAllConversations (currentUser : Option AuthUser) (receiverId : String)
    (completion : List MessageModel → Prog ρ) : Prog ρ :=
  match currentUser with
  | none => .done
  | some user =>
    .issue (.observeSingleEvent ["conversations"]) (fun read =>
      match read with
      | .value snapshot =>
        getAllConversationsOnValue (threadKey user.uid receiverId) snapshot completion
      | .cancelled _ => .done) .done

/-- The closure of `observeConversations` on a snapshot: the captured array `messages` after
it, and the list given to the completion handler, if it is called. -/
def observeConversationsOnValue (conversationPath : String) (snapshot : Value)
    (messages : List MessageModel) : List MessageModel × Option (List MessageModel) :=
  if snapshot.exists_ then
    match snapshot.asDictionary with
    | some conversations =>
      -- the messages of earlier reports are kept in the captured array
      let messages := sortByTimestamp (collectMessages conversationPath conversations messages)
      (messages, some messages)
    | none => (messages, none)
  else ([], some [])

/-- The messages of one thread, in the order of enumeration. -/
def threadMessages (data : List (String × Value)) : List MessageModel :=
  data.foldl (fun messages entry =>
    match entry.2.asDictionary with
    | none => messages
    | some message => messages ++ [messageModel entry.1 message]) []

/-- Add the messages of a thread to its entry, or add an entry. -/
def appendThread (senderMessages : List SenderMessages) (senderReceiverId : String)
    (sortedMessages : List MessageModel) : List SenderMessages :=
  match senderMessages.findIdx? (fun m => m.senderReceiverId == senderReceiverId) with
  | some index =>
    senderMessages.modify index fun m => { m with messages := m.messages ++ sortedMessages }
  | none => senderMessages ++ [⟨senderReceiverId, sortedMessages⟩]

/-- The loop of `fetchLastMessages`. -/
def fetchLastMessagesLoop (conversations : List (String × Value)) : List SenderMessages :=
  conversations.foldl (fun senderMessages conversation =>
    match messagesData conversation.2 with
    | none => senderMessages
    | some data =>
      appendThread senderMessages conversation.1 (sortByTimestamp (threadMessages data))) []

/-- `fetchLastMessages`. No block is given for a cancelled read. -/
def fetchLastMessages (currentUser : Option AuthUser)
    (completion : List SenderMessages → Prog ρ) : Prog ρ :=
  match currentUser with
  | none => .done
  | some _ =>
    .issue (.observeSingleEvent ["conversations"]) (fun read =>
      match read with
      | .value snapshot =>
        if snapshot.exists_ then
          match snapshot.asDictionary with
          | some conversations => completion (fetchLastMessagesLoop conversations)
          | none => .done
        else completion []
      | .cancelled _ => .done) .done

/-- `deleteUserConversations`: one removal for each id. The two user ids and the completion
handler are not used. -/
def deleteUserConversations (conversationId : String) (messageID : List String)
    (_senderId _receiverId : String) (_completion : String → Prog ρ) : Prog ρ :=
  messageID.foldr (fun message rest =>
    match (child ["conversations"] conversationId).bind
        (fun conversation => child (conversation ++ ["messages"]) message) with
    | none => .trap
    | some removeConversationRef =>
      .issue (.removeValue removeConversationRef) (fun _ => .done) rest) .done

/-- The fields that `uploadPost` stores with and without a photo. -/
def postValues (userId userName userEmail profile content : String) : List (String × Value) :=
  [("userId", .string userId), ("fullName", .string userName),
    ("profileImageUrl", .string profile), ("userEmail", .string userEmail),
    ("content", .string content)]

/-- The end of `uploadPost`: save the post under the node of its user. -/
def savePost (autoId userId : String) (values : List (String × Value))
    (completion : Option NSError → Prog ρ) : Prog ρ :=
  match child ["posts"] userId with
  | none => .trap
  | some userPosts =>
    .issue (.setValue (userPosts ++ [autoId]) (.dict values))
      (fun error => completion error) .done

/-- `uploadPost`. -/
def uploadPost (uuidString autoId userId userName userEmail profile : String)
    (imageUrl : Option UIImage) (content : String) (completion : Option NSError → Prog ρ) :
    Prog ρ :=
  let imageRef : StorageReference := ["profile_images", uuidString ++ ".jpg"]
  let values := postValues userId userName userEmail profile content
  match imageUrl.bind UIImage.jpegData with
  | some uploadData =>
    .issue (.putData imageRef uploadData) (fun uploaded =>
      match uploaded.error with
      | some error => completion (some error)
      | none =>
        .issue (.downloadURL imageRef) (fun located =>
          match located.value with
          -- without a URL the error is passed on, which may be none
          | none => completion located.error
          | some imageUrl =>
            savePost autoId userId (values ++ [("postImage", .string imageUrl)]) completion)
          .done) .done
  -- this branch sets no `postImage`
  | none => savePost autoId userId values completion

end LearnCode.MessageManager
