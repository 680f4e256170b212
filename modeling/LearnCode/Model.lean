import LearnCode.Swift

/-!
# Records of the app

* `MessageModel` and `SenderMessages`: a message, and the messages of one thread;
* `UserResponse` and `LoggedUserModel`: a user as listed, and as read for oneself;
* `MediaPostModel`: a post of the feed.
-/

namespace LearnCode

/-- `MessageModel`. -/
structure MessageModel where
  messageID : String
  senderId : String
  receiverId : String
  content : String
  timestamp : TimeInterval
deriving DecidableEq

/-- `SenderMessages`. -/
structure SenderMessages where
  senderReceiverId : String
  messages : List MessageModel
deriving DecidableEq

/-- `UserResponse`. -/
structure UserResponse where
  userId : Option String
  fullName : Option String
  userEmail : Option String
  userMobile : Option String
  profileImageURL : Option String
deriving DecidableEq

/-- `LoggedUserModel`. -/
structure LoggedUserModel where
  userId : Option String
  fullName : Option String
  userEmail : Option String
  profileImageUrl : Option String
deriving DecidableEq

/-- `MediaPostModel`. -/
structure MediaPostModel where
  userId : Option String
  content : Option String
  fullName : Option String
  postImage : Option String
  userEmail : Option String
  userImage : Option String
deriving DecidableEq

/-- `messages.sort { $0.timestamp < $1.timestamp }`; the sort keeps the order of messages with
equal timestamps. -/
def sortByTimestamp (messages : List MessageModel) : List MessageModel :=
  messages.insertionSort (fun a b => a.timestamp ≤ b.timestamp)

/-- Sorting keeps the messages. -/
theorem sortByTimestamp_perm (messages : List MessageModel) :
    (sortByTimestamp messages).Perm messages :=
  List.perm_insertionSort _ messages

/-- Sorted messages are in non-decreasing order of their timestamps. -/
theorem sortByTimestamp_pairwise (messages : List MessageModel) :
    (sortByTimestamp messages).Pairwise (fun a b => a.timestamp ≤ b.timestamp) := by
  have : Std.Total (fun a b : MessageModel => a.timestamp ≤ b.timestamp) :=
    ⟨fun a b => le_total a.timestamp b.timestamp⟩
  have : IsTrans MessageModel (fun a b => a.timestamp ≤ b.timestamp) :=
    ⟨fun _ _ _ => le_trans⟩
  exact List.pairwise_insertionSort _ messages

/-- Messages with equal timestamps keep their order. -/
theorem filter_timestamp_sortByTimestamp (messages : List MessageModel) (timestamp : TimeInterval) :
    (sortByTimestamp messages).filter (fun m => m.timestamp = timestamp) =
      messages.filter (fun m => m.timestamp = timestamp) := by
  have hties : (messages.filter (fun m => m.timestamp = timestamp)).Pairwise
      (fun a b => a.timestamp ≤ b.timestamp) := by
    refine List.pairwise_of_forall_mem_list fun a ha b hb => ?_
    simp only [List.mem_filter, decide_eq_true_eq] at ha hb
    rw [ha.2, hb.2]
  have hsublist := (List.sublist_insertionSort hties List.filter_sublist).filter
    (fun m => m.timestamp = timestamp)
  simp only [List.filter_filter, Bool.and_self] at hsublist
  exact (hsublist.eq_of_length ((sortByTimestamp_perm messages).filter _).length_eq.symm).symm

end LearnCode
