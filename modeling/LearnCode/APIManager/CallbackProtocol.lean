import LearnCode.APIManager.Endings

/-!
# The callback protocol of the two managers

A call keeps the protocol if, once none of its requests is pending, it has called its
completion handler exactly once, and without an error only if all that it stands for has been
acknowledged. Each of the eleven operations keeps it on some replies and breaks it on others;
the condition is stated on the arguments and the replies.

## Main definitions

* `Operation` and `Operation.body`: the operations with all their arguments;
* `Operation.Acknowledged`: the accounts, uploads and writes that a call stands for have been
  acknowledged;
* `KeepsProtocol`: the protocol, for one settled call;
* `Operation.Served`: the condition on the arguments and the replies.

## Main results

* `keepsProtocol_iff_served`: each operation keeps the protocol exactly when it is served.
-/

namespace LearnCode

open Callback DatabaseManager MessageManager

/-! ## Replies -/

namespace Event

/-- The error that a step fails with. A missing URL without an error is none. -/
def failure : Event → Option NSError
  | ⟨.createUser _ _, created⟩ => created.error
  | ⟨.putData _ _, uploaded⟩ => uploaded.error
  | ⟨.downloadURL _, ⟨none, error⟩⟩ => error
  | ⟨.updateChildValues _ _, error⟩ => error
  | ⟨.setValue _ _, error⟩ => error
  | _ => none

/-- An account that was asked for is delivered, with an id that is a legal path, and so is the
metadata of an image. -/
def Confirms : Event → Prop
  | ⟨.createUser _ _, created⟩ =>
    ∃ user, created.value = some user ∧ isValidPathString user.uid = true
  | ⟨.putData _ _, uploaded⟩ => uploaded.value ≠ none
  | _ => True

/-- A URL that was asked for is delivered. -/
def Locates : Event → Prop
  | ⟨.downloadURL _, located⟩ => located.value ≠ none
  | _ => True

/-- A read is not cancelled. -/
def IsRead : Event → Prop
  | ⟨.observeSingleEvent _, .cancelled _⟩ => False
  | _ => True

/-- A read is not cancelled, and finds nothing or a dictionary. -/
def ReadsDictionary : Event → Prop
  | ⟨.observeSingleEvent _, .value snapshot⟩ =>
    snapshot.exists_ = true → snapshot.asDictionary ≠ none
  | ⟨.observeSingleEvent _, .cancelled _⟩ => False
  | _ => True

/-- An acknowledged write or removal. -/
def isAcknowledgedWrite : Event → Bool
  | ⟨.updateChildValues _ _, error⟩ => error.isNone
  | ⟨.setValue _ _, error⟩ => error.isNone
  | ⟨.removeValue _, error⟩ => error.isNone
  | _ => false

end Event

/-! ## Operations -/

/-- The operations of `DatabaseManager` and `MessageManager` that take a completion handler and
end. -/
inductive Operation : Type where
  | addUser (s : SignUp)
  | uploadImage (u : ImageUpload)
  | updateUserInDatabase (userId userName userEmail mobileNo : String)
      (imageUrl : Option String)
  | fetchUsers (currentUser : Option AuthUser)
  | fetchCurrentUser (userId : String)
  | fetchUserPosts
  | sendMessagesToUser (autoId : String) (message : MessageModel)
  | getAllConversations (currentUser : Option AuthUser) (receiverId : String)
  | fetchLastMessages (currentUser : Option AuthUser)
  | deleteUserConversations (conversationId : String) (messageID : List String)
      (senderId receiverId : String)
  | uploadPost (u : Upload)

namespace Operation

/-- The call, which reports the error that its completion handler is given. -/
def body : Operation → Prog (Option NSError)
  | addUser s => s.body
  | uploadImage u => u.body
  | updateUserInDatabase userId userName userEmail mobileNo imageUrl =>
    DatabaseManager.updateUserInDatabase userId userName userEmail mobileNo imageUrl
      fun error => .complete error .done
  | fetchUsers currentUser =>
    DatabaseManager.fetchUsers currentUser fun _ error => .complete error .done
  | fetchCurrentUser userId =>
    DatabaseManager.fetchCurrentUser userId fun _ error => .complete error .done
  | fetchUserPosts => DatabaseManager.fetchUserPosts fun _ error => .complete error .done
  | sendMessagesToUser autoId message =>
    MessageManager.sendMessagesToUser autoId message fun error => .complete error .done
  | getAllConversations currentUser receiverId =>
    MessageManager.getAllConversations currentUser receiverId fun _ => .complete none .done
  | fetchLastMessages currentUser =>
    MessageManager.fetchLastMessages currentUser fun _ => .complete none .done
  | deleteUserConversations conversationId messageID senderId receiverId =>
    MessageManager.deleteUserConversations conversationId messageID senderId receiverId
      fun _ => .complete none .done
  | uploadPost u => u.body

/-- The numbers of accounts, uploads and database writes that a call stands for. -/
def duty : Operation → ℕ × ℕ × ℕ
  | addUser _ => (1, 1, 1)
  | uploadImage _ => (0, 1, 0)
  | updateUserInDatabase _ _ _ _ _ => (0, 0, 1)
  | sendMessagesToUser _ _ => (0, 0, 1)
  | deleteUserConversations _ messageID _ _ => (0, 0, messageID.length)
  | uploadPost u => (0, if u.encoded.isSome then 1 else 0, 1)
  | _ => (0, 0, 0)

/-- All that a call stands for has been acknowledged. -/
def Acknowledged (op : Operation) (trace : List Event) : Prop :=
  ((accounts trace).length, (storedImages trace).length,
    trace.countP Event.isAcknowledgedWrite) = op.duty

/-- The condition on the arguments of a call and on the replies to it. -/
def Served : Operation → List Event → Prop
  | addUser s, trace =>
    (∃ e ∈ trace, e.failure ≠ none) ∨
      s.profileImg.jpegData ≠ none ∧ ∀ e ∈ trace, e.Confirms
  | uploadImage u, trace =>
    (∃ e ∈ trace, e.failure ≠ none) ∨ u.image.jpegData ≠ none ∧ ∀ e ∈ trace, e.Confirms
  | updateUserInDatabase userId _ _ _ _, _ => isValidPathString userId = true
  | fetchUsers _, trace => ∀ e ∈ trace, e.IsRead
  | fetchCurrentUser userId, trace =>
    isValidPathString userId = true ∧ ∀ e ∈ trace, e.ReadsDictionary
  | fetchUserPosts, _ => True
  | sendMessagesToUser _ message, _ =>
    isValidPathString (threadKey message.senderId message.receiverId) = true
  | getAllConversations currentUser _, trace =>
    currentUser ≠ none ∧ ∀ e ∈ trace, e.ReadsDictionary
  | fetchLastMessages currentUser, trace =>
    currentUser ≠ none ∧ ∀ e ∈ trace, e.ReadsDictionary
  | deleteUserConversations _ _ _ _, _ => False
  | uploadPost u, trace =>
    (∃ e ∈ trace, e.failure ≠ none) ∨
      isValidPathString u.userId = true ∧ ∀ e ∈ trace, e.Confirms ∧ e.Locates

end Operation

/-- A settled call has called its completion handler exactly once, and without an error only
if all that it stands for has been acknowledged. -/
def KeepsProtocol (op : Operation) (trace : List Event) (results : List (Option NSError)) :
    Prop :=
  ∃ error, op.body.completed ++ results = [error] ∧ (error = none → op.Acknowledged trace)

/-- What a deletion leaves pending neither issues nor reports anything. -/
theorem silent_of_mem_issued_delete {ρ : Type} (conversationId : String)
    (messageID : List String) (senderId receiverId : String)
    (completion : String → Prog ρ) :
    (MessageManager.deleteUserConversations conversationId messageID senderId receiverId
      completion).completed = [] ∧
    ∀ p ∈ (MessageManager.deleteUserConversations conversationId messageID senderId receiverId
      completion).issued, ∀ r, (p.2 r).issued = [] ∧ (p.2 r).completed = [] := by
  unfold MessageManager.deleteUserConversations
  induction messageID with
  | nil => exact ⟨rfl, by simp⟩
  | cons message messageID ih =>
    rw [List.foldr_cons]
    -- an invalid path raises before the removal is issued
    cases (child ["conversations"] conversationId).bind
        (fun conversation => child (conversation ++ ["messages"]) message) with
    | none => exact ⟨rfl, by simp⟩
    | some reference =>
      refine ⟨ih.1, fun p hp r => ?_⟩
      rcases List.mem_cons.mp hp with rfl | hp
      · exact ⟨rfl, rfl⟩
      · exact ih.2 p hp r

/-- No operation calls its completion handler at once. -/
theorem Operation.completed_body (op : Operation) : op.body.completed = [] := by
  -- each operation issues a request, raises or ends before it calls the handler
  cases op with
  | addUser s => rfl
  | uploadImage u =>
    exact completed_uploadImage u.uuidString u.image fun _ error => .complete error .done
  | updateUserInDatabase userId userName userEmail mobileNo imageUrl =>
    exact completed_updateUserInDatabase userId userName userEmail mobileNo imageUrl
  | fetchUsers currentUser => rfl
  | fetchCurrentUser userId =>
    simp only [body, DatabaseManager.fetchCurrentUser]
    cases child ["users"] userId <;> rfl
  | fetchUserPosts => rfl
  | sendMessagesToUser autoId message =>
    simp only [body, MessageManager.sendMessagesToUser]
    unfold sendMessage
    dsimp only
    cases child ["conversations"] (threadKey message.senderId message.receiverId) <;> rfl
  | getAllConversations currentUser receiverId => cases currentUser <;> rfl
  | fetchLastMessages currentUser => cases currentUser <;> rfl
  | deleteUserConversations conversationId messageID senderId receiverId =>
    exact (silent_of_mem_issued_delete conversationId messageID senderId receiverId
      fun _ => .complete none .done).1
  | uploadPost u =>
    simp only [body, Upload.body, MessageManager.uploadPost]
    cases u.imageUrl.bind UIImage.jpegData with
    | none => exact Upload.completed_savePost _ _ _
    | some data => rfl

variable {op : Operation} {trace : List Event}

/-- A call that has not called its completion handler breaks the protocol. -/
theorem not_keepsProtocol_nil : ¬KeepsProtocol op trace [] := by
  rintro ⟨error, h, -⟩
  rw [op.completed_body] at h
  cases h

/-- A call that has reported an error, and nothing else, keeps the protocol. -/
theorem keepsProtocol_error (error : NSError) : KeepsProtocol op trace [some error] :=
  ⟨some error, by rw [op.completed_body]; rfl, nofun⟩

/-- A call that reports an error after a failure keeps the protocol, and its replies excuse it. -/
private theorem keepsProtocol_iff_of_failure {error : NSError} {P : Prop}
    (h : ∃ e ∈ trace, e.failure ≠ none) :
    KeepsProtocol op trace [some error] ↔ (∃ e ∈ trace, e.failure ≠ none) ∨ P :=
  iff_of_true (keepsProtocol_error error) (.inl h)

/-- A call that has reported no error keeps the protocol if what it stands for is
acknowledged. -/
theorem keepsProtocol_none_iff : KeepsProtocol op trace [none] ↔ op.Acknowledged trace := by
  constructor
  · rintro ⟨error, h, hack⟩
    rw [op.completed_body] at h
    exact hack (List.cons.inj h).1.symm
  · intro hack
    exact ⟨none, by rw [op.completed_body]; rfl, fun _ => hack⟩

/-! ## The operations one by one -/

/-- A reported error of an upload is the error of one of its replies. -/
private theorem exists_failure_of_ends {u : ImageUpload} {imageUrl : Option String}
    {error : NSError} (h : u.Ends trace (some (imageUrl, some error))) :
    ∃ e ∈ trace, e.failure ≠ none := by
  cases h with
  | refused _ herror => exact ⟨_, List.mem_cons_self, by simp [Event.failure, herror]⟩
  | notLocated _ _ => exact ⟨_, List.mem_cons_of_mem _ List.mem_cons_self, nofun⟩

/-- An upload that is reported without an error had no failure and wrote nothing, and its image is
stored exactly if its metadata was delivered. -/
private theorem accepted_upload {u : ImageUpload} {upload : List Event}
    {imageUrl : Option String} (h : u.Ends upload (some (imageUrl, none))) :
    u.image.jpegData ≠ none ∧ (∀ e ∈ upload, e.failure = none) ∧
      upload.countP Event.isAcknowledgedWrite = 0 ∧
      ((storedImages upload).length = 1 ↔ ∀ e ∈ upload, e.Confirms) := by
  cases h with
  | @notLocated data uploaded error hdata herror =>
    obtain ⟨value, error⟩ := uploaded
    obtain rfl : error = none := herror
    cases value <;>
      simp [Event.failure, hdata, Event.Confirms, Event.storedImage, Event.isAcknowledgedWrite]
  | @located data uploaded imageUrl error hdata herror =>
    obtain ⟨value, error⟩ := uploaded
    obtain rfl : error = none := herror
    cases value <;>
      simp [Event.failure, hdata, Event.Confirms, Event.storedImage, Event.isAcknowledgedWrite]

/-- Replies without an error contain no failure. -/
private theorem not_exists_failure (h : ∀ e ∈ trace, e.failure = none) :
    ¬∃ e ∈ trace, e.failure ≠ none := by
  rintro ⟨e, he, herror⟩
  exact herror (h e he)

/-- `uploadImage`. -/
private theorem keepsProtocol_uploadImage_iff {u : ImageUpload}
    {results : List (Option NSError)} (h : Settles u.body.issued trace results) :
    KeepsProtocol (.uploadImage u) trace results ↔ (Operation.uploadImage u).Served trace := by
  obtain ⟨given, hends, rfl⟩ := u.ends_of_settles h
  match given, hends with
  | none, .notEncoded hdata =>
    -- a picture without data is never stored, and the handler is not called
    refine iff_of_false not_keepsProtocol_nil ?_
    simp [Operation.Served, hdata]
  | some (imageUrl, some error), hends =>
    exact keepsProtocol_iff_of_failure (exists_failure_of_ends hends)
  | some (imageUrl, none), hends =>
    obtain ⟨hdata, hfailure, hwrites, himages⟩ := accepted_upload hends
    -- the duty of an upload is one stored picture
    have hack : (Operation.uploadImage u).Acknowledged trace ↔
        (storedImages trace).length = 1 := by
      simp [Operation.Acknowledged, Operation.duty, hends.no_effects.1, hwrites]
    have hserved : (Operation.uploadImage u).Served trace ↔
        u.image.jpegData ≠ none ∧ ∀ e ∈ trace, e.Confirms :=
      or_iff_right (not_exists_failure hfailure)
    refine keepsProtocol_none_iff.trans ?_
    rw [hack, himages, hserved]
    exact (and_iff_right hdata).symm

/-- `addUser`, where the account, the image and the profile have been accepted. -/
private theorem keepsProtocol_addUser_updated_iff {s : SignUp} {user : AuthUser}
    {upload : List Event} {imageUrl : Option String}
    (hupload : s.upload.Ends upload (some (imageUrl, none)))
    (hvalid : isValidPathString user.uid = true)
    (htrace : trace = ⟨.createUser s.userEmail s.password, ⟨some user, none⟩⟩ ::
      (upload ++ [⟨s.request user.uid imageUrl, none⟩])) :
    KeepsProtocol (.addUser s) trace [none] ↔ (Operation.addUser s).Served trace := by
  obtain ⟨hdata, hfailure, hwrites, himages⟩ := accepted_upload hupload
  have hack : (Operation.addUser s).Acknowledged trace ↔ (storedImages upload).length = 1 := by
    simp [htrace, Operation.Acknowledged, Operation.duty, Event.account, Event.storedImage,
      accounts_append, storedImages_append, hupload.no_effects.1, hwrites,
      Event.isAcknowledgedWrite, SignUp.request]
  have hfailures : ∀ e ∈ trace, e.failure = none := by
    rw [htrace]
    exact List.forall_mem_cons.mpr ⟨rfl, List.forall_mem_append.mpr
      ⟨hfailure, List.forall_mem_singleton.mpr rfl⟩⟩
  refine (keepsProtocol_none_iff.trans ?_).trans
    (or_iff_right (not_exists_failure hfailures)).symm
  rw [hack, himages, htrace, List.forall_mem_cons, List.forall_mem_append,
    List.forall_mem_singleton]
  -- the account and the write are confirmed in any case
  constructor
  · intro hconfirms
    exact ⟨hdata, ⟨user, rfl, hvalid⟩, hconfirms, trivial⟩
  · rintro ⟨-, -, hconfirms, -⟩
    exact hconfirms

/-- `addUser`. -/
private theorem keepsProtocol_addUser_iff {s : SignUp} {results : List (Option NSError)}
    (h : Settles s.body.issued trace results) :
    KeepsProtocol (.addUser s) trace results ↔ (Operation.addUser s).Served trace := by
  cases s.ends_of_settles h with
  | @refused created error herror =>
    exact keepsProtocol_iff_of_failure ⟨_, List.mem_cons_self, by simp [Event.failure, herror]⟩
  | nobody =>
    -- reported as a success, with no account
    refine keepsProtocol_none_iff.trans ?_
    simp [Operation.Acknowledged, Operation.duty, Operation.Served, Event.failure,
      Event.Confirms, Event.account]
  | notEncoded hdata =>
    -- the account exists, and nobody is told
    refine iff_of_false not_keepsProtocol_nil ?_
    simp [Operation.Served, hdata, Event.failure]
  | @notUploaded user upload imageUrl error hupload =>
    obtain ⟨e, he, herror⟩ := exists_failure_of_ends hupload
    exact keepsProtocol_iff_of_failure ⟨e, List.mem_cons_of_mem _ he, herror⟩
  | @trapped user upload imageUrl hupload hinvalid =>
    -- the id of the account is no legal path, so its delivery confirms nothing
    obtain ⟨-, hfailure, -, -⟩ := accepted_upload hupload
    refine iff_of_false not_keepsProtocol_nil ?_
    rintro (⟨e, he, herror⟩ | ⟨-, hconfirms⟩)
    · rcases List.mem_cons.mp he with rfl | he
      · exact herror rfl
      · exact not_exists_failure hfailure ⟨e, he, herror⟩
    · obtain ⟨user', huser, hvalid⟩ := hconfirms _ List.mem_cons_self
      obtain rfl : user = user' := Option.some.inj huser
      rw [hvalid] at hinvalid
      cases hinvalid
  | @updated user upload imageUrl error hupload hvalid =>
    cases error with
    | some error =>
      exact keepsProtocol_iff_of_failure
        ⟨⟨s.request user.uid imageUrl, some error⟩, by simp, nofun⟩
    | none => exact keepsProtocol_addUser_updated_iff hupload hvalid rfl

/-- `uploadPost`. -/
private theorem keepsProtocol_uploadPost_iff {u : Upload} {results : List (Option NSError)}
    (h : Settles u.body.issued trace results) :
    KeepsProtocol (.uploadPost u) trace results ↔ (Operation.uploadPost u).Served trace := by
  cases u.ends_of_settles h with
  | trapped _ hinvalid =>
    refine iff_of_false not_keepsProtocol_nil ?_
    simp [Operation.Served, hinvalid]
  | @saved error hencoded hvalid =>
    cases error with
    | some error =>
      exact keepsProtocol_iff_of_failure ⟨_, List.mem_cons_self, nofun⟩
    | none =>
      refine keepsProtocol_none_iff.trans (iff_of_true ?_ (.inr ⟨hvalid, ?_⟩))
      · simp [Operation.Acknowledged, Operation.duty, Event.account, Event.storedImage,
          Event.isAcknowledgedWrite, Upload.request, hencoded]
      · simp [Event.Confirms, Event.Locates, Upload.request]
  | @refused data uploaded error _ herror =>
    exact keepsProtocol_iff_of_failure ⟨_, List.mem_cons_self, by simp [Event.failure, herror]⟩
  | @notLocated data uploaded error hencoded herror =>
    cases error with
    | some error =>
      exact keepsProtocol_iff_of_failure
        ⟨_, List.mem_cons_of_mem _ List.mem_cons_self, nofun⟩
    | none =>
      -- the handler is called without an error, and the post has not been saved
      refine keepsProtocol_none_iff.trans (iff_of_false ?_ ?_)
      · simp [Operation.Acknowledged, Operation.duty, Event.isAcknowledgedWrite]
      · simp [Operation.Served, Event.failure, Event.Locates, herror]
  | @locatedTrapped data uploaded imageUrl error _ herror hinvalid =>
    refine iff_of_false not_keepsProtocol_nil ?_
    simp [Operation.Served, hinvalid, Event.failure, herror]
  | @locatedSaved data uploaded imageUrl error error' hencoded herror hvalid =>
    cases error' with
    | some error' =>
      exact keepsProtocol_iff_of_failure ⟨⟨u.request (some imageUrl), some error'⟩, by simp, nofun⟩
    | none =>
      refine keepsProtocol_none_iff.trans ?_
      obtain ⟨value, error''⟩ := uploaded
      obtain rfl : error'' = none := herror
      cases value <;>
        simp [Operation.Acknowledged, Operation.duty, Operation.Served, Event.failure, hencoded,
          hvalid, Event.Confirms, Event.Locates, Event.account, Event.storedImage,
          Event.isAcknowledgedWrite, Upload.request]

/-- `updateUserInDatabase`. -/
private theorem keepsProtocol_updateUserInDatabase_iff
    {userId userName userEmail mobileNo : String} {imageUrl : Option String}
    {results : List (Option NSError)}
    (h : Settles (Operation.updateUserInDatabase userId userName userEmail mobileNo
      imageUrl).body.issued trace results) :
    KeepsProtocol (.updateUserInDatabase userId userName userEmail mobileNo imageUrl) trace
      results ↔ isValidPathString userId = true := by
  rcases settles_updateUserInDatabase h with ⟨hinvalid, rfl, rfl⟩ | ⟨error, hvalid, rfl, rfl⟩
  · exact iff_of_false not_keepsProtocol_nil (by simp [hinvalid])
  · refine iff_of_true ?_ hvalid
    cases error with
    | some error => exact keepsProtocol_error error
    | none => exact keepsProtocol_none_iff.mpr rfl

/-- `sendMessagesToUser`. -/
private theorem keepsProtocol_sendMessagesToUser_iff {autoId : String} {message : MessageModel}
    {results : List (Option NSError)}
    (h : Settles (Operation.sendMessagesToUser autoId message).body.issued trace results) :
    KeepsProtocol (.sendMessagesToUser autoId message) trace results ↔
      isValidPathString (threadKey message.senderId message.receiverId) = true := by
  simp only [Operation.body, MessageManager.sendMessagesToUser] at h
  unfold sendMessage child at h
  dsimp only at h
  by_cases hvalid : isValidPathString (threadKey message.senderId message.receiverId) = true
  · rw [if_pos hvalid] at h
    obtain ⟨error, _, _, hrest, rfl, rfl⟩ := settles_singleton_iff.mp h
    obtain ⟨rfl, rfl⟩ := settles_nil_iff.mp hrest
    refine iff_of_true ?_ hvalid
    cases error with
    | some error => exact keepsProtocol_error error
    | none => exact keepsProtocol_none_iff.mpr rfl
  · -- an invalid path raises, and nothing is reported
    rw [if_neg hvalid] at h
    obtain ⟨rfl, rfl⟩ := settles_nil_iff.mp h
    exact iff_of_false not_keepsProtocol_nil hvalid

/-- An operation that only reads stands for nothing to be acknowledged. -/
private theorem acknowledged_of_read {path : Path} {read : Read}
    (hduty : op.duty = (0, 0, 0)) : op.Acknowledged [⟨.observeSingleEvent path, read⟩] := by
  rw [Operation.Acknowledged, hduty]
  rfl

/-- `fetchUsers`. -/
private theorem keepsProtocol_fetchUsers_iff {currentUser : Option AuthUser}
    {results : List (Option NSError)}
    (h : Settles (Operation.fetchUsers currentUser).body.issued trace results) :
    KeepsProtocol (.fetchUsers currentUser) trace results ↔ ∀ e ∈ trace, e.IsRead := by
  obtain ⟨read, _, _, hrest, rfl, rfl⟩ := settles_singleton_iff.mp h
  cases read with
  | cancelled error =>
    -- a cancelled read calls nothing
    obtain ⟨rfl, rfl⟩ := settles_nil_iff.mp hrest
    refine iff_of_false not_keepsProtocol_nil ?_
    simp [Event.IsRead]
  | value snapshot =>
    simp only at hrest ⊢
    cases hloop : fetchUsersLoop currentUser snapshot.children [] with
    | error error =>
      -- an error of the decoder is reported
      rw [hloop] at hrest
      obtain ⟨rfl, rfl⟩ := settles_nil_iff.mp hrest
      exact iff_of_true (keepsProtocol_error error) (by simp [Event.IsRead])
    | ok users =>
      rw [hloop] at hrest
      obtain ⟨rfl, rfl⟩ := settles_nil_iff.mp hrest
      exact iff_of_true (keepsProtocol_none_iff.mpr (acknowledged_of_read rfl))
        (by simp [Event.IsRead])

/-- `fetchUserPosts`. -/
private theorem keepsProtocol_fetchUserPosts {results : List (Option NSError)}
    (h : Settles Operation.fetchUserPosts.body.issued trace results) :
    KeepsProtocol .fetchUserPosts trace results := by
  obtain ⟨read, _, _, hrest, rfl, rfl⟩ := settles_singleton_iff.mp h
  cases read with
  | cancelled error =>
    obtain ⟨rfl, rfl⟩ := settles_nil_iff.mp hrest
    exact keepsProtocol_error error
  | value snapshot =>
    obtain ⟨rfl, rfl⟩ := settles_nil_iff.mp hrest
    exact keepsProtocol_none_iff.mpr (acknowledged_of_read rfl)

/-- An operation whose closure calls the handler when the node is absent or a dictionary, and
otherwise does nothing, keeps the protocol on those reads. -/
private theorem keepsProtocol_dictionary_iff {path : Path}
    {callback : Read → Prog (Option NSError)} {results : List (Option NSError)}
    (hduty : op.duty = (0, 0, 0))
    (hvalue : ∀ snapshot, callback (.value snapshot) =
      if snapshot.exists_ = true → snapshot.asDictionary ≠ none then .complete none .done
      else .done)
    (hcancelled : ∀ error, callback (.cancelled error) = .done)
    (h : Settles [⟨.observeSingleEvent path, callback⟩] trace results) :
    KeepsProtocol op trace results ↔ ∀ e ∈ trace, e.ReadsDictionary := by
  obtain ⟨read, _, _, hrest, rfl, rfl⟩ := settles_singleton_iff.mp h
  rw [List.forall_mem_cons]
  cases read with
  | cancelled error =>
    rw [hcancelled] at hrest ⊢
    obtain ⟨rfl, rfl⟩ := settles_nil_iff.mp hrest
    exact iff_of_false not_keepsProtocol_nil fun h => h.1
  | value snapshot =>
    rw [hvalue] at hrest ⊢
    split at hrest
    case isTrue hdictionary =>
      obtain ⟨rfl, rfl⟩ := settles_nil_iff.mp hrest
      rw [if_pos hdictionary]
      exact iff_of_true (keepsProtocol_none_iff.mpr (acknowledged_of_read hduty))
        ⟨hdictionary, nofun⟩
    -- a value that is no dictionary is passed over in silence
    case isFalse hother =>
      obtain ⟨rfl, rfl⟩ := settles_nil_iff.mp hrest
      rw [if_neg hother]
      exact iff_of_false not_keepsProtocol_nil fun h => hother h.1

/-- `fetchCurrentUser`. -/
private theorem keepsProtocol_fetchCurrentUser_iff {userId : String}
    {results : List (Option NSError)}
    (h : Settles (Operation.fetchCurrentUser userId).body.issued trace results) :
    KeepsProtocol (.fetchCurrentUser userId) trace results ↔
      isValidPathString userId = true ∧ ∀ e ∈ trace, e.ReadsDictionary := by
  simp only [Operation.body, DatabaseManager.fetchCurrentUser, child] at h
  by_cases hvalid : isValidPathString userId = true
  · rw [if_pos hvalid] at h
    rw [and_iff_right hvalid]
    refine keepsProtocol_dictionary_iff rfl (fun snapshot => ?_) (fun _ => rfl) h
    cases snapshot <;> simp [Value.exists_, Value.asDictionary]
  · rw [if_neg hvalid] at h
    obtain ⟨rfl, rfl⟩ := settles_nil_iff.mp h
    exact iff_of_false not_keepsProtocol_nil fun h => hvalid h.1

/-- `getAllConversations`. -/
private theorem keepsProtocol_getAllConversations_iff {currentUser : Option AuthUser}
    {receiverId : String} {results : List (Option NSError)}
    (h : Settles (Operation.getAllConversations currentUser receiverId).body.issued trace
      results) :
    KeepsProtocol (.getAllConversations currentUser receiverId) trace results ↔
      currentUser ≠ none ∧ ∀ e ∈ trace, e.ReadsDictionary := by
  cases currentUser with
  | none =>
    obtain ⟨rfl, rfl⟩ := settles_nil_iff.mp h
    exact iff_of_false not_keepsProtocol_nil fun h => h.1 rfl
  | some user =>
    rw [and_iff_right (Option.some_ne_none user)]
    refine keepsProtocol_dictionary_iff rfl (fun snapshot => ?_) (fun _ => rfl) h
    cases snapshot <;> simp [getAllConversationsOnValue, Value.exists_, Value.asDictionary]

/-- `fetchLastMessages`. -/
private theorem keepsProtocol_fetchLastMessages_iff {currentUser : Option AuthUser}
    {results : List (Option NSError)}
    (h : Settles (Operation.fetchLastMessages currentUser).body.issued trace results) :
    KeepsProtocol (.fetchLastMessages currentUser) trace results ↔
      currentUser ≠ none ∧ ∀ e ∈ trace, e.ReadsDictionary := by
  cases currentUser with
  | none =>
    obtain ⟨rfl, rfl⟩ := settles_nil_iff.mp h
    exact iff_of_false not_keepsProtocol_nil fun h => h.1 rfl
  | some user =>
    rw [and_iff_right (Option.some_ne_none user)]
    refine keepsProtocol_dictionary_iff rfl (fun snapshot => ?_) (fun _ => rfl) h
    cases snapshot <;> simp [Value.exists_, Value.asDictionary]

/-- `deleteUserConversations` never calls its completion handler. -/
private theorem not_keepsProtocol_deleteUserConversations {conversationId : String}
    {messageID : List String} {senderId receiverId : String} {results : List (Option NSError)}
    (h : Settles (Operation.deleteUserConversations conversationId messageID senderId
      receiverId).body.issued trace results) :
    ¬KeepsProtocol (.deleteUserConversations conversationId messageID senderId receiverId)
      trace results := by
  obtain rfl : results = [] :=
    h.results_eq_nil (silent_of_mem_issued_delete conversationId messageID senderId receiverId
      fun _ => .complete none .done).2
  exact not_keepsProtocol_nil

/-! ## All operations -/

/-- Once nothing of a call is pending, the protocol has been kept exactly when the call was
served. -/
theorem keepsProtocol_iff_served (op : Operation) (trace : List Event)
    (results : List (Option NSError)) (h : Settles op.body.issued trace results) :
    KeepsProtocol op trace results ↔ op.Served trace := by
  cases op with
  | addUser s => exact keepsProtocol_addUser_iff h
  | uploadImage u => exact keepsProtocol_uploadImage_iff h
  | updateUserInDatabase userId userName userEmail mobileNo imageUrl =>
    exact keepsProtocol_updateUserInDatabase_iff h
  | fetchUsers currentUser => exact keepsProtocol_fetchUsers_iff h
  | fetchCurrentUser userId => exact keepsProtocol_fetchCurrentUser_iff h
  | fetchUserPosts => exact iff_of_true (keepsProtocol_fetchUserPosts h) trivial
  | sendMessagesToUser autoId message => exact keepsProtocol_sendMessagesToUser_iff h
  | getAllConversations currentUser receiverId => exact keepsProtocol_getAllConversations_iff h
  | fetchLastMessages currentUser => exact keepsProtocol_fetchLastMessages_iff h
  | deleteUserConversations conversationId messageID senderId receiverId =>
    exact iff_of_false (not_keepsProtocol_deleteUserConversations h) id
  | uploadPost u => exact keepsProtocol_uploadPost_iff h

/-- A post with an image of one byte. -/
def oneBytePost : Upload :=
  ⟨"file", ⟨"-post", by decide⟩, "u", "name", "email", "profile", some ⟨some [0]⟩, "content"⟩

/-- The image of the post is stored, its URL is found, and its record is saved. -/
def oneBytePostReplies : List Event :=
  [⟨.putData oneBytePost.reference [0], ⟨some ⟨[]⟩, none⟩⟩,
    ⟨.downloadURL oneBytePost.reference, ⟨some "url", none⟩⟩,
    ⟨oneBytePost.request (some "url"), none⟩]

/-- A post whose three steps succeed is reported once, after all of them. -/
theorem keepsProtocol_iff_served_oneBytePost :
    KeepsProtocol (.uploadPost oneBytePost) oneBytePostReplies [none] ∧
      (Operation.uploadPost oneBytePost).Acknowledged oneBytePostReplies := by
  have hserved : (Operation.uploadPost oneBytePost).Served oneBytePostReplies := by
    refine .inr ⟨by decide, ?_⟩
    simp [oneBytePostReplies, Event.Confirms, Event.Locates, Upload.request]
  have hsettles : Settles (Operation.uploadPost oneBytePost).body.issued oneBytePostReplies
      [none] := by
    refine settles_singleton_iff.mpr ⟨⟨some ⟨[]⟩, none⟩, _, _, ?_, rfl, rfl⟩
    refine settles_singleton_iff.mpr ⟨⟨some "url", none⟩, _, _, ?_, rfl, rfl⟩
    exact settles_singleton_iff.mpr ⟨none, [], [], settles_nil_iff.mpr ⟨rfl, rfl⟩, rfl, rfl⟩
  exact ⟨(keepsProtocol_iff_served _ _ _ hsettles).mpr hserved, rfl⟩

/-- A list of users whose read is cancelled, say because the rules of the database do not
permit it: nothing is pending, and the handler has not been called. -/
theorem not_keepsProtocol_cancelledRead :
    ∃ (op : Operation) (trace : List Event) (results : List (Option NSError)),
      op = .fetchUsers none ∧
      trace = [⟨.observeSingleEvent ["users"], .cancelled ⟨"Permission Denied"⟩⟩] ∧
      Settles op.body.issued trace results ∧ ¬KeepsProtocol op trace results := by
  refine ⟨_, _, [], rfl, rfl, ?_, not_keepsProtocol_nil⟩
  exact settles_singleton_iff.mpr
    ⟨.cancelled ⟨"Permission Denied"⟩, [], [], settles_nil_iff.mpr ⟨rfl, rfl⟩, rfl, rfl⟩

end LearnCode
