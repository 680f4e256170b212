import LearnCode.Firebase.Backend
import LearnCode.Model

/-!
# `DatabaseManager`

Accounts, profiles and the feed. Values that a function draws from its surroundings are
arguments: the fresh name of an uploaded file, and the id of the signed-in user. `print` is
left out.

## Main definitions

* `addUser`, `uploadImage` and `updateUserInDatabase`: the three parts of a sign-up;
* `fetchUsers`, `fetchCurrentUser` and `fetchUserPosts`: the readers.
-/

namespace LearnCode.DatabaseManager

variable {ρ : Type}

/-- `currentUserId`: the id of the signed-in user, or the empty string. -/
def currentUserId (currentUser : Option AuthUser) : String :=
  match currentUser with
  | none => ""
  | some user => user.uid

/-- `uploadImage`. -/
def uploadImage (uuidString : String) (image : UIImage)
    (completion : Option String → Option NSError → Prog ρ) : Prog ρ :=
  let imageRef : StorageReference := ["profile_images", uuidString ++ ".jpg"]
  match image.jpegData with
  | some uploadData =>
    .issue (.putData imageRef uploadData) (fun uploaded =>
      match uploaded.error with
      | some error => completion none (some error)
      | none =>
        .issue (.downloadURL imageRef) (fun located =>
          match located.value with
          -- without a URL the error is passed on, which may be none
          | none => completion none located.error
          | some imageUrl => completion (some imageUrl) none) .done) .done
  -- only a line is printed, and the handler is not called
  | none => .done

/-- The record that `updateUserInDatabase` writes. -/
def profileValues (userName userEmail mobileNo : String) (imageUrl : Option String) :
    List (String × Value) :=
  [("fullName", .string userName), ("userEmail", .string userEmail),
    ("userMobile", .string mobileNo)] ++
  match imageUrl with
  | some imageUrl => [("profileImageUrl", .string imageUrl)]
  | none => []

/-- `updateUserInDatabase`. -/
def updateUserInDatabase (userId userName userEmail mobileNo : String)
    (imageUrl : Option String) (completion : Option NSError → Prog ρ) : Prog ρ :=
  match child ["users"] userId with
  | none => .trap
  | some userReference =>
    .issue (.updateChildValues userReference
        (profileValues userName userEmail mobileNo imageUrl)) (fun error =>
      match error with
      | some error => completion (some error)
      | none => completion none) .done

/-- `addUser`. -/
def addUser (uuidString userName userEmail mobileNo password : String) (profileImg : UIImage)
    (completion : Option NSError → Prog ρ) : Prog ρ :=
  .issue (.createUser userEmail password) (fun created =>
    match created.error with
    | some error => completion (some error)
    | none =>
      match created.value with
      -- no user is reported as no error
      | none => completion none
      | some authUser =>
        uploadImage uuidString profileImg fun imageUrl uploadError =>
          match uploadError with
          | some uploadError => completion (some uploadError)
          | none =>
            updateUserInDatabase authUser.uid userName userEmail mobileNo imageUrl
              fun updateError => completion updateError) .done

/-- The error of `JSONDecoder` on a field that is not a string. -/
def decodingError : NSError :=
  ⟨"The data couldn’t be read because it isn’t in the correct format."⟩

/-- `decodeIfPresent` of a string. -/
def decodeStringIfPresent (userDict : List (String × Value)) (key : String) :
    Except NSError (Option String) :=
  match userDict.lookup key with
  | none => .ok none
  | some .null => .ok none
  | some value =>
    match value.asString with
    | some s => .ok (some s)
    | none => .error decodingError

/-- The decoder of `UserResponse`, by its `CodingKeys`; the user id is not among them. -/
def decodeUserResponse (userDict : List (String × Value)) : Except NSError UserResponse := do
  let fullName ← decodeStringIfPresent userDict "fullName"
  let userEmail ← decodeStringIfPresent userDict "userEmail"
  let userMobile ← decodeStringIfPresent userDict "userMobile"
  let profileImageURL ← decodeStringIfPresent userDict "profileImageUrl"
  return { userId := none, fullName, userEmail, userMobile, profileImageURL }

/-- The loop of `fetchUsers` over the children of the snapshot. -/
def fetchUsersLoop (currentUser : Option AuthUser) :
    List (String × Value) → List UserResponse → Except NSError (List UserResponse)
  | [], users => .ok users
  | (userId, value) :: rest, users =>
    match value.asDictionary with
    | none => fetchUsersLoop currentUser rest users
    | some userDict =>
      match decodeUserResponse userDict with
      -- the first record that cannot be decoded ends the loop
      | .error error => .error error
      | .ok userResponse =>
        if currentUser.map AuthUser.uid ≠ some userId then
          fetchUsersLoop currentUser rest (users ++ [{ userResponse with userId := some userId }])
        else fetchUsersLoop currentUser rest users

/-- `fetchUsers`. No block is given for a cancelled read. -/
def fetchUsers (currentUser : Option AuthUser)
    (completion : List UserResponse → Option NSError → Prog ρ) : Prog ρ :=
  .issue (.observeSingleEvent ["users"]) (fun read =>
    match read with
    | .value snapshot =>
      match fetchUsersLoop currentUser snapshot.children [] with
      | .ok users => completion users none
      | .error error => completion [] (some error)
    | .cancelled _ => .done) .done

/-- `fetchCurrentUser`. No block is given for a cancelled read. -/
def fetchCurrentUser (userId : String)
    (completion : Option LoggedUserModel → Option NSError → Prog ρ) : Prog ρ :=
  match child ["users"] userId with
  | none => .trap
  | some userReference =>
    .issue (.observeSingleEvent userReference) (fun read =>
      match read with
      | .value snapshot =>
        if snapshot.exists_ then
          match snapshot.asDictionary with
          | some dictionary =>
            let username := (dictionary.lookup "fullName").bind Value.asString
            let useremail := (dictionary.lookup "userEmail").bind Value.asString
            let profileImageUrl := (dictionary.lookup "profileImageUrl").bind Value.asString
            completion (some ⟨some userId, username, useremail, profileImageUrl⟩) none
          -- the cast has no `else`
          | none => .done
        else completion none none
      | .cancelled _ => .done) .done

/-- The six casts of `fetchUserPosts` on one post. -/
def mediaPost (postData : List (String × Value)) : Option MediaPostModel := do
  let userId ← (postData.lookup "userId").bind Value.asString
  let content ← (postData.lookup "content").bind Value.asString
  let fullName ← (postData.lookup "fullName").bind Value.asString
  let postImageURL ← (postData.lookup "postImage").bind Value.asString
  let userEmail ← (postData.lookup "userEmail").bind Value.asString
  let userProfile ← (postData.lookup "profileImageUrl").bind Value.asString
  return ⟨some userId, some content, some fullName, some postImageURL, some userEmail,
    some userProfile⟩

/-- The nested loops of `fetchUserPosts`. -/
def fetchUserPostsLoop (snapshot : Value) : List MediaPostModel :=
  snapshot.children.foldl (fun posts userSnapshot =>
    userSnapshot.2.children.foldl (fun posts postSnapshot =>
      match postSnapshot.2.asDictionary with
      | none => posts
      | some postData =>
        match mediaPost postData with
        | some mediaPost => posts ++ [mediaPost]
        | none => posts) posts) []

/-- `fetchUserPosts`. -/
def fetchUserPosts (completion : List MediaPostModel → Option NSError → Prog ρ) : Prog ρ :=
  .issue (.observeSingleEvent ["posts"]) (fun read =>
    match read with
    | .value snapshot => completion (fetchUserPostsLoop snapshot) none
    | .cancelled error => completion [] (some error)) .done

end LearnCode.DatabaseManager
