import LearnCode.APIManager.DatabaseManager
import LearnCode.APIManager.MessageManager

/-!
# How the calls end

The chains of requests of `addUser`, `uploadImage` and `uploadPost`, followed to every end. A
call that is settled has been given the replies of one of the listed ends, in their order, and
has reported what is listed there.

## Main definitions

* `SignUp` and `SignUp.Ends`: a call of `addUser`, and its ends;
* `ImageUpload` and `ImageUpload.Ends`: a call of `uploadImage`, and its ends;
* `Upload` and `Upload.Ends`: a call of `uploadPost`, and its ends.

## Main results

* `settles_uploadImage`: the ends of `uploadImage`, with what its completion handler does next;
* `SignUp.ends_of_settles`, `ImageUpload.ends_of_settles` and `Upload.ends_of_settles`: there
  are no other ends.
-/

namespace LearnCode

open Callback DatabaseManager MessageManager

variable {trace : List Event}

/-! ## Uploading an image -/

/-- A call of `uploadImage`. -/
structure ImageUpload where
  /-- The fresh name of the uploaded file. -/
  uuidString : String
  /-- The image. -/
  image : UIImage

namespace ImageUpload

/-- The file of the image. -/
def reference (u : ImageUpload) : StorageReference :=
  ["profile_images", u.uuidString ++ ".jpg"]

/-- The ends of `uploadImage`: the replies, and what its completion handler is given, if it is
called. -/
inductive Ends (u : ImageUpload) :
    List Event → Option (Option String × Option NSError) → Prop
  | notEncoded : u.image.jpegData = none → Ends u [] none
  | refused {data : Data} {uploaded : Outcome StorageMetadata} {error : NSError} :
      u.image.jpegData = some data → uploaded.error = some error →
      Ends u [⟨.putData u.reference data, uploaded⟩] (some (none, some error))
  | notLocated {data : Data} {uploaded : Outcome StorageMetadata} {error : Option NSError} :
      u.image.jpegData = some data → uploaded.error = none →
      Ends u [⟨.putData u.reference data, uploaded⟩, ⟨.downloadURL u.reference, ⟨none, error⟩⟩]
        (some (none, error))
  | located {data : Data} {uploaded : Outcome StorageMetadata} {imageUrl : String}
      {error : Option NSError} :
      u.image.jpegData = some data → uploaded.error = none →
      Ends u [⟨.putData u.reference data, uploaded⟩,
        ⟨.downloadURL u.reference, ⟨some imageUrl, error⟩⟩] (some (some imageUrl, none))

/-- An image upload creates no account and writes nothing to the database. -/
theorem Ends.no_effects {u : ImageUpload} {given : Option (Option String × Option NSError)}
    (h : u.Ends trace given) : accounts trace = [] ∧ databaseOps trace = [] := by
  cases h <;> exact ⟨rfl, rfl⟩

/-- The call. -/
def body (u : ImageUpload) : Prog (Option NSError) :=
  DatabaseManager.uploadImage u.uuidString u.image fun _ error => .complete error .done

end ImageUpload

/-- A settled call of `uploadImage` has come to one of its ends, and what follows is what its
completion handler does. -/
theorem settles_uploadImage {ρ : Type} {uuidString : String} {image : UIImage}
    {completion : Option String → Option NSError → Prog ρ} {results : List ρ}
    (h : Settles (DatabaseManager.uploadImage uuidString image completion).issued trace results) :
    ∃ front given, ImageUpload.Ends ⟨uuidString, image⟩ front given ∧
      match given with
      | none => trace = front ∧ results = []
      | some (imageUrl, error) => ∃ back results',
          Settles (completion imageUrl error).issued back results' ∧ trace = front ++ back ∧
          results = (completion imageUrl error).completed ++ results' := by
  unfold DatabaseManager.uploadImage at h
  -- the cases are the branches of the function and of its closures, from the outside in
  cases hdata : image.jpegData with
  | none =>
    rw [hdata] at h
    obtain ⟨rfl, rfl⟩ := settles_nil_iff.mp h
    exact ⟨[], none, .notEncoded hdata, rfl, rfl⟩
  | some data =>
    rw [hdata] at h
    obtain ⟨⟨metadata, error⟩, rest, results', hrest, rfl, rfl⟩ := settles_singleton_iff.mp h
    cases error with
    | some error =>
      exact ⟨_, _, .refused hdata rfl, rest, results', hrest, rfl, rfl⟩
    | none =>
      obtain ⟨⟨url, error⟩, back, results'', hback, rfl, rfl⟩ := settles_singleton_iff.mp hrest
      cases url with
      | none => exact ⟨_, _, .notLocated hdata rfl, back, results'', hback, rfl, rfl⟩
      | some imageUrl => exact ⟨_, _, .located hdata rfl, back, results'', hback, rfl, rfl⟩

/-- A settled call of `uploadImage` has come to one of its ends. -/
theorem ImageUpload.ends_of_settles {u : ImageUpload} {results : List (Option NSError)}
    (h : Settles u.body.issued trace results) :
    ∃ given, u.Ends trace given ∧ results = (given.map Prod.snd).toList := by
  obtain ⟨front, given, hends, hgiven⟩ := settles_uploadImage h
  cases given with
  | none =>
    obtain ⟨rfl, rfl⟩ := hgiven
    exact ⟨none, hends, rfl⟩
  | some given =>
    obtain ⟨back, results', hback, rfl, rfl⟩ := hgiven
    obtain ⟨rfl, rfl⟩ := settles_nil_iff.mp hback
    refine ⟨some given, ?_, rfl⟩
    rwa [List.append_nil]

/-! ## Signing up -/

/-- A call of `addUser`. -/
structure SignUp where
  /-- The fresh name of the uploaded file. -/
  uuidString : String
  userName : String
  userEmail : String
  mobileNo : String
  password : String
  profileImg : UIImage

namespace SignUp

/-- The call. -/
def body (s : SignUp) : Prog (Option NSError) :=
  addUser s.uuidString s.userName s.userEmail s.mobileNo s.password s.profileImg fun error =>
    .complete error .done

/-- The upload that is part of the call. -/
def upload (s : SignUp) : ImageUpload := ⟨s.uuidString, s.profileImg⟩

/-- The update that ends the call. -/
def request (s : SignUp) (uid : String) (imageUrl : Option String) : Request :=
  .updateChildValues (["users"] ++ pieces uid)
    (profileValues s.userName s.userEmail s.mobileNo imageUrl)

/-- The ends of `addUser`: the replies, and what is reported. -/
inductive Ends (s : SignUp) : List Event → List (Option NSError) → Prop
  | refused {created : Outcome AuthUser} {error : NSError} : created.error = some error →
      Ends s [⟨.createUser s.userEmail s.password, created⟩] [some error]
  | nobody : Ends s [⟨.createUser s.userEmail s.password, ⟨none, none⟩⟩] [none]
  | notEncoded {user : AuthUser} : s.profileImg.jpegData = none →
      Ends s [⟨.createUser s.userEmail s.password, ⟨some user, none⟩⟩] []
  | notUploaded {user : AuthUser} {upload : List Event} {imageUrl : Option String}
      {error : NSError} : s.upload.Ends upload (some (imageUrl, some error)) →
      Ends s (⟨.createUser s.userEmail s.password, ⟨some user, none⟩⟩ :: upload) [some error]
  | trapped {user : AuthUser} {upload : List Event} {imageUrl : Option String} :
      s.upload.Ends upload (some (imageUrl, none)) → isValidPathString user.uid = false →
      Ends s (⟨.createUser s.userEmail s.password, ⟨some user, none⟩⟩ :: upload) []
  | updated {user : AuthUser} {upload : List Event} {imageUrl : Option String}
      {error : Option NSError} :
      s.upload.Ends upload (some (imageUrl, none)) → isValidPathString user.uid = true →
      Ends s (⟨.createUser s.userEmail s.password, ⟨some user, none⟩⟩ ::
        (upload ++ [⟨s.request user.uid imageUrl, error⟩])) [error]

end SignUp

/-- The ends of `updateUserInDatabase`: an exception on an invalid id, or one update whose
reply is reported. -/
theorem settles_updateUserInDatabase {userId userName userEmail mobileNo : String}
    {imageUrl : Option String} {results : List (Option NSError)}
    (h : Settles (updateUserInDatabase userId userName userEmail mobileNo imageUrl fun error =>
      .complete error .done : Prog (Option NSError)).issued trace results) :
    (isValidPathString userId = false ∧ trace = [] ∧ results = []) ∨
      ∃ error : Option NSError, isValidPathString userId = true ∧
        trace = [⟨.updateChildValues (["users"] ++ pieces userId)
          (profileValues userName userEmail mobileNo imageUrl), error⟩] ∧ results = [error] := by
  unfold updateUserInDatabase child at h
  cases hvalid : isValidPathString userId with
  | false =>
    rw [hvalid] at h
    obtain ⟨rfl, rfl⟩ := settles_nil_iff.mp h
    exact .inl ⟨rfl, rfl, rfl⟩
  | true =>
    rw [hvalid] at h
    obtain ⟨error, _, _, hrest, rfl, rfl⟩ := settles_singleton_iff.mp h
    -- both branches report the reply that came
    right
    cases error with
    | none =>
      obtain ⟨rfl, rfl⟩ := settles_nil_iff.mp hrest
      exact ⟨none, rfl, rfl, rfl⟩
    | some error =>
      obtain ⟨rfl, rfl⟩ := settles_nil_iff.mp hrest
      exact ⟨some error, rfl, rfl, rfl⟩

/-- `updateUserInDatabase` reports nothing at once. -/
theorem completed_updateUserInDatabase (userId userName userEmail mobileNo : String)
    (imageUrl : Option String) :
    (updateUserInDatabase userId userName userEmail mobileNo imageUrl fun error =>
      .complete error .done : Prog (Option NSError)).completed = [] := by
  unfold updateUserInDatabase
  cases child ["users"] userId <;> rfl

/-- `uploadImage` reports nothing at once. -/
theorem completed_uploadImage {ρ : Type} (uuidString : String) (image : UIImage)
    (completion : Option String → Option NSError → Prog ρ) :
    (DatabaseManager.uploadImage uuidString image completion).completed = [] := by
  unfold DatabaseManager.uploadImage
  cases image.jpegData <;> rfl

/-- A settled call of `addUser` has come to one of its ends. -/
theorem SignUp.ends_of_settles {s : SignUp} {results : List (Option NSError)}
    (h : Settles s.body.issued trace results) : s.Ends trace results := by
  -- the reply to `createUser` is told apart first
  obtain ⟨⟨user, error⟩, rest, results', hrest, rfl, rfl⟩ := settles_singleton_iff.mp h
  cases error with
  | some error =>
    obtain ⟨rfl, rfl⟩ := settles_nil_iff.mp hrest
    exact .refused rfl
  | none =>
    cases user with
    | none =>
      obtain ⟨rfl, rfl⟩ := settles_nil_iff.mp hrest
      exact .nobody
    | some user =>
      -- then the end of the upload
      obtain ⟨front, given, hends, hgiven⟩ := settles_uploadImage hrest
      change s.Ends _
        ((DatabaseManager.uploadImage s.uuidString s.profileImg _).completed ++ results')
      rw [completed_uploadImage, List.nil_append]
      cases given with
      | none =>
        obtain ⟨rfl, rfl⟩ := hgiven
        cases hends with
        | notEncoded hdata => exact .notEncoded hdata
      | some given =>
        obtain ⟨imageUrl, error⟩ := given
        obtain ⟨back, results'', hback, rfl, rfl⟩ := hgiven
        cases error with
        | some error =>
          obtain ⟨rfl, rfl⟩ := settles_nil_iff.mp hback
          rw [List.append_nil]
          exact .notUploaded hends
        | none =>
          change s.Ends _ ((updateUserInDatabase user.uid s.userName s.userEmail s.mobileNo
            imageUrl fun error => .complete error .done).completed ++ results'')
          rw [completed_updateUserInDatabase, List.nil_append]
          -- and last the end of the update
          rcases settles_updateUserInDatabase hback with
            ⟨hvalid, rfl, rfl⟩ | ⟨error, hvalid, rfl, rfl⟩
          · rw [List.append_nil]
            exact .trapped hends hvalid
          · exact .updated hends hvalid

/-! ## Uploading a post -/

/-- A call of `uploadPost`. -/
structure Upload where
  /-- The fresh name of the uploaded file. -/
  uuidString : String
  /-- The key that `childByAutoId` draws for the post. -/
  autoId : Key
  userId : String
  userName : String
  userEmail : String
  profile : String
  /-- The image of the post, if there is one. -/
  imageUrl : Option UIImage
  content : String

namespace Upload

/-- The call. -/
def body (u : Upload) : Prog (Option NSError) :=
  uploadPost u.uuidString u.autoId.id u.userId u.userName u.userEmail u.profile u.imageUrl
    u.content fun error => .complete error .done

/-- The encoded image, if the call has an image and it can be encoded. -/
def encoded (u : Upload) : Option Data := u.imageUrl.bind UIImage.jpegData

/-- The file of the image. -/
def reference (u : Upload) : StorageReference := ["profile_images", u.uuidString ++ ".jpg"]

/-- The record of the post, with the URL of its image. -/
def record (u : Upload) (imageUrl : Option String) : List (String × Value) :=
  postValues u.userId u.userName u.userEmail u.profile u.content ++
    match imageUrl with
    | some imageUrl => [("postImage", .string imageUrl)]
    | none => []

/-- The request that saves the record of the post. -/
def request (u : Upload) (imageUrl : Option String) : Request :=
  .setValue (["posts"] ++ pieces u.userId ++ [u.autoId.id]) (.dict (u.record imageUrl))

/-- The ends of `uploadPost`: the replies, and what is reported. -/
inductive Ends (u : Upload) : List Event → List (Option NSError) → Prop
  | trapped : u.encoded = none → isValidPathString u.userId = false → Ends u [] []
  | saved {error : Option NSError} : u.encoded = none → isValidPathString u.userId = true →
      Ends u [⟨u.request none, error⟩] [error]
  | refused {data : Data} {uploaded : Outcome StorageMetadata} {error : NSError} :
      u.encoded = some data → uploaded.error = some error →
      Ends u [⟨.putData u.reference data, uploaded⟩] [some error]
  | notLocated {data : Data} {uploaded : Outcome StorageMetadata} {error : Option NSError} :
      u.encoded = some data → uploaded.error = none →
      Ends u [⟨.putData u.reference data, uploaded⟩, ⟨.downloadURL u.reference, ⟨none, error⟩⟩]
        [error]
  | locatedTrapped {data : Data} {uploaded : Outcome StorageMetadata} {imageUrl : String}
      {error : Option NSError} :
      u.encoded = some data → uploaded.error = none → isValidPathString u.userId = false →
      Ends u [⟨.putData u.reference data, uploaded⟩,
        ⟨.downloadURL u.reference, ⟨some imageUrl, error⟩⟩] []
  | locatedSaved {data : Data} {uploaded : Outcome StorageMetadata} {imageUrl : String}
      {error error' : Option NSError} :
      u.encoded = some data → uploaded.error = none → isValidPathString u.userId = true →
      Ends u [⟨.putData u.reference data, uploaded⟩,
        ⟨.downloadURL u.reference, ⟨some imageUrl, error⟩⟩, ⟨u.request (some imageUrl), error'⟩]
        [error']

/-- The last part of `uploadPost` reports nothing at once. -/
theorem completed_savePost (autoId userId : String) (values : List (String × Value)) :
    (savePost autoId userId values fun error =>
      .complete error .done : Prog (Option NSError)).completed = [] := by
  unfold savePost
  cases child ["posts"] userId <;> rfl

/-- The ends of the last part: an exception on an invalid id, or one record that is stored. -/
theorem settles_savePost {autoId userId : String} {values : List (String × Value)}
    {results : List (Option NSError)}
    (h : Settles (savePost autoId userId values fun error =>
      .complete error .done : Prog (Option NSError)).issued trace results) :
    (isValidPathString userId = false ∧ trace = [] ∧ results = []) ∨
      ∃ error : Option NSError, isValidPathString userId = true ∧
        trace = [⟨.setValue (["posts"] ++ pieces userId ++ [autoId]) (.dict values), error⟩] ∧
        results = [error] := by
  unfold savePost child at h
  cases hvalid : isValidPathString userId with
  | false =>
    rw [hvalid] at h
    obtain ⟨rfl, rfl⟩ := settles_nil_iff.mp h
    exact .inl ⟨rfl, rfl, rfl⟩
  | true =>
    rw [hvalid] at h
    obtain ⟨error, _, _, hrest, rfl, rfl⟩ := settles_singleton_iff.mp h
    obtain ⟨rfl, rfl⟩ := settles_nil_iff.mp hrest
    exact .inr ⟨error, rfl, rfl, rfl⟩

/-- A settled call of `uploadPost` has come to one of its ends. -/
theorem ends_of_settles {u : Upload} {results : List (Option NSError)}
    (h : Settles u.body.issued trace results) : u.Ends trace results := by
  unfold body uploadPost at h
  cases hencoded : u.encoded with
  | none =>
    rw [show u.imageUrl.bind UIImage.jpegData = none from hencoded] at h
    rcases settles_savePost h with ⟨hvalid, rfl, rfl⟩ | ⟨error, hvalid, rfl, rfl⟩
    · exact .trapped hencoded hvalid
    -- a post without an image has no further field
    · have hrecord : u.record none = postValues u.userId u.userName u.userEmail u.profile
          u.content := rfl
      rw [← hrecord]
      exact .saved hencoded hvalid
  | some data =>
    rw [show u.imageUrl.bind UIImage.jpegData = some data from hencoded] at h
    -- the image is uploaded, located and only then the record is saved
    obtain ⟨⟨metadata, error⟩, _, _, hupload, rfl, rfl⟩ := settles_singleton_iff.mp h
    cases error with
    | some error =>
      obtain ⟨rfl, rfl⟩ := settles_nil_iff.mp hupload
      exact .refused hencoded rfl
    | none =>
      obtain ⟨⟨url, error⟩, _, _, hlocate, rfl, rfl⟩ := settles_singleton_iff.mp hupload
      cases url with
      | none =>
        obtain ⟨rfl, rfl⟩ := settles_nil_iff.mp hlocate
        exact .notLocated hencoded rfl
      | some imageUrl =>
        change u.Ends _ ([] ++ ((savePost u.autoId.id u.userId (u.record (some imageUrl))
          fun error => .complete error .done).completed ++ _))
        rw [completed_savePost, List.nil_append, List.nil_append]
        rcases settles_savePost hlocate with ⟨hvalid, rfl, rfl⟩ | ⟨error', hvalid, rfl, rfl⟩
        · exact .locatedTrapped hencoded rfl hvalid
        · exact .locatedSaved hencoded rfl hvalid

end Upload

end LearnCode
