import LearnCode.APIManager.UserList
import LearnCode.SignUp.Consistency

/-!
# Profiles read back

`fetchUsers` decodes the records below `users`, and `fetchCurrentUser` casts the fields of one of
them. After sign-ups that all complete without an error, both deliver what was registered: the list
has each user but the signed-in one, once, and a single read agrees with it.

## Main definitions

* `Value.Filled` and `FilledSnapshot`: the database keeps no empty nodes;
* `RegistrationRun`: sign-ups that all complete without an error;
* `RegistrationRun.Registered`: the id of the account and the URL of the image of a call;
* `ReadsBack`: both readers deliver what was registered.

## Main results

* `SignUp.exists_registered_of_settles`: what a call that completes without an error has written;
* `RegistrationRun.mem_children_iff`: the records below `users` after a run;
* `readsBack`: both readers agree with every run.
-/

namespace LearnCode

open Callback PathStore DatabaseManager

/-! ## Snapshots without empty nodes -/

/-- Each node of the value holds a leaf. The elements of an array that do not exist are none. -/
inductive Value.Filled : Value → Prop
  | scalar (s : Scalar) : Filled (scalar s)
  | array {elements : List Value} :
      (array elements).children ≠ [] → (∀ e ∈ (array elements).children, e.2.Filled) →
      Filled (array elements)
  | dict {entries : List (String × Value)} :
      entries ≠ [] → (∀ e ∈ entries, e.2.Filled) → Filled (dict entries)

/-- What a read of a node gives: a node exists only if there is a leaf at it or below it. -/
structure FilledSnapshot (db : Database) (path : Path) extends Snapshot db path where
  /-- The node does not exist, or each of its nodes holds a leaf. -/
  filled : value = .null ∨ value.Filled

/-- A value that is filled has a leaf. -/
theorem Value.Filled.exists_leaf {v : Value} (h : v.Filled) (hnested : v.Nested) :
    ∃ q x, v.leaf q = some x := by
  have hchild {v : Value} (hnested : v.Nested) (hne : v.children ≠ [])
      (ih : ∀ e ∈ v.children, e.2.Nested → ∃ q x, e.2.leaf q = some x) :
      ∃ q x, v.leaf q = some x := by
    obtain ⟨e, he⟩ := List.exists_mem_of_ne_nil v.children hne
    obtain ⟨q, x, hx⟩ := ih e he (hnested.of_mem_children he)
    refine ⟨e.1 :: q, x, ?_⟩
    rw [Value.leaf_cons, AssocList.lookup_of_mem hnested.nodup_keys he, Option.bind_some, hx]
  induction h with
  | scalar s => exact ⟨[], s, rfl⟩
  | array hne _ ih => exact hchild hnested hne ih
  | dict hne _ ih => exact hchild hnested hne ih

/-- A child of a filled value is filled. -/
theorem FilledSnapshot.filled_of_mem_children {db : Database} {path : Path}
    (snapshot : FilledSnapshot db path) {e : String × Value} (he : e ∈ snapshot.value.children) :
    e.2.Filled := by
  rcases snapshot.filled with hnull | hfilled
  · rw [hnull] at he
    cases he
  · generalize snapshot.value = v at he hfilled
    cases hfilled with
    | scalar s => cases he
    | array _ helements => exact helements e he
    | dict _ hentries => exact hentries e he

/-! ## What is registered -/

namespace SignUp

/-- The user that is listed for a sign-up. -/
def listed (s : SignUp) (uid imageUrl : String) : UserResponse where
  userId := some uid
  fullName := some s.userName
  userEmail := some s.userEmail
  userMobile := some s.mobileNo
  profileImageURL := some imageUrl

/-- The user that is read for a sign-up. -/
def logged (s : SignUp) (uid imageUrl : String) : LoggedUserModel where
  userId := some uid
  fullName := some s.userName
  userEmail := some s.userEmail
  profileImageUrl := some imageUrl

/-- A call that completes without an error, by steps that succeed or fail, has created an account,
uploaded an image and written the profile with its URL. -/
theorem exists_registered_of_settles {s : SignUp} {trace : List Event}
    (h : Settles s.body.issued trace [none]) (hdecided : ∀ e ∈ trace, e.Decided)
    (hlegal : ∀ user ∈ accounts trace, isValidKey user.uid = true) :
    ∃ user imageUrl, accounts trace = [user] ∧
      trace.findSome? Event.downloadUrl = some imageUrl ∧
      databaseOps trace = s.profileOps user.uid (some imageUrl) := by
  generalize hresults : [none] = results at h
  cases ends_of_settles h with
  | refused _ => cases (List.cons.inj hresults).1
  -- a reply with neither a user nor an error is no outcome of the backend
  | nobody => exact absurd rfl (hdecided _ List.mem_cons_self)
  | notEncoded _ => cases hresults
  | notUploaded _ => cases (List.cons.inj hresults).1
  | trapped _ _ => cases hresults
  | @updated user upload imageUrl error hupload hvalid =>
    -- the write has been acknowledged, as no error is reported
    obtain rfl := (List.cons.inj hresults).1
    have hlegal' : isValidKey user.uid = true := hlegal user List.mem_cons_self
    cases hupload with
    -- without a URL there is an error
    | notLocated _ _ => exact absurd rfl (hdecided
        ⟨.downloadURL s.upload.reference, ⟨none, none⟩⟩ (by simp))
    | @located _ _ imageUrl _ _ _ =>
      refine ⟨user, imageUrl, rfl, rfl, ?_⟩
      rw [← databaseOps_request hlegal']
      simp [Event.databaseOps]

/-- The entries of a dictionary are the fields of the profile. -/
structure IsRecord (s : SignUp) (imageUrl : String) (entries : List (String × Value)) : Prop where
  fullName : entries.lookup "fullName" = some (.string s.userName)
  userEmail : entries.lookup "userEmail" = some (.string s.userEmail)
  userMobile : entries.lookup "userMobile" = some (.string s.mobileNo)
  profileImageUrl : entries.lookup "profileImageUrl" = some (.string imageUrl)

/-- A record is decoded, but for the id, which is not in it. -/
theorem IsRecord.decodeUserResponse_eq {s : SignUp} {imageUrl : String}
    {entries : List (String × Value)} (h : s.IsRecord imageUrl entries) :
    decodeUserResponse entries = .ok
      ⟨none, some s.userName, some s.userEmail, some s.mobileNo, some imageUrl⟩ := by
  simp [decodeUserResponse, decodeStringIfPresent, h.fullName, h.userEmail, h.userMobile,
    h.profileImageUrl, Value.asString, bind, Except.bind, pure, Except.pure]

/-- The record of another user is listed. -/
theorem IsRecord.listedUser_of_ne {s : SignUp} {imageUrl : String}
    {entries : List (String × Value)} (h : s.IsRecord imageUrl entries) {viewer : Option AuthUser}
    {uid : String} (hother : viewer.map AuthUser.uid ≠ some uid) :
    listedUser viewer (uid, .dict entries) = some (s.listed uid imageUrl) := by
  simp only [listedUser, Value.asDictionary, h.decodeUserResponse_eq, Except.toOption,
    Option.bind_eq_bind, Option.bind_some, if_pos hother]
  rfl

end SignUp

/-! ## Runs -/

/-- Sign-ups that all complete without an error. -/
structure RegistrationRun (ι : Type) [DecidableEq ι] extends SignUpRun ι where
  /-- Every call reports that there was no error. -/
  completes : ∀ i, results i = [none]

namespace RegistrationRun

variable {ι : Type} [DecidableEq ι] {r : RegistrationRun ι}

/-- The id of the account that a call has created, and the URL of the image it has uploaded. -/
structure Registered (r : RegistrationRun ι) (i : ι) (uid imageUrl : String) : Prop where
  uid : (r.accountsOf i).map AuthUser.uid = [uid]
  imageUrl : (project i r.trace).findSome? Event.downloadUrl = some imageUrl

/-- Each call has registered a user. -/
theorem exists_registered (r : RegistrationRun ι) (i : ι) :
    ∃ uid imageUrl, r.Registered i uid imageUrl ∧
      r.writesOf i = (r.signUps i).profileOps uid (some imageUrl) := by
  have hsettles := r.interleaves.settles i
  rw [r.completes i] at hsettles
  obtain ⟨user, imageUrl, haccounts, hurl, hwrites⟩ :=
    SignUp.exists_registered_of_settles hsettles
      (fun e he => r.decided i e (mem_project.mp he)) (r.legal i)
  exact ⟨user.uid, imageUrl, ⟨by simp [SignUpRun.accountsOf, haccounts], hurl⟩, hwrites⟩

/-- A call has registered one id and one URL. -/
theorem Registered.unique {i : ι} {uid uid' imageUrl imageUrl' : String}
    (h : r.Registered i uid imageUrl) (h' : r.Registered i uid' imageUrl') :
    uid = uid' ∧ imageUrl = imageUrl' :=
  ⟨(List.cons.inj (h.uid.symm.trans h'.uid)).1, Option.some.inj (h.imageUrl.symm.trans h'.imageUrl)⟩

/-- The id of an account is a legal key. -/
theorem Registered.isValidKey {i : ι} {uid imageUrl : String} (h : r.Registered i uid imageUrl) :
    isValidKey uid = true := by
  obtain ⟨user, huser, rfl⟩ := List.mem_map.mp
    (h.uid ▸ List.mem_singleton_self uid : uid ∈ (r.accountsOf i).map AuthUser.uid)
  exact r.legal i user huser

/-- The fields of a registered profile stand in the database. -/
theorem Registered.final_apply {i : ι} {uid imageUrl : String} (h : r.Registered i uid imageUrl)
    {name : String} {v : Value} (he : (name, v) ∈ profileValues (r.signUps i).userName
      (r.signUps i).userEmail (r.signUps i).mobileNo (some imageUrl)) :
    r.final ["users", uid, name] = v.leaf [] := by
  obtain ⟨uid', imageUrl', h', hwrites⟩ := r.exists_registered i
  obtain ⟨rfl, rfl⟩ := h.unique h'
  exact SignUpRun.final_apply_of_mem_profileValues hwrites he

/-- What stands below `users` belongs to a registered user. -/
theorem exists_registered_of_final {uid : String} {q : Path} {x : Scalar}
    (h : r.final (["users", uid] ++ q) = some x) : ∃ i imageUrl, r.Registered i uid imageUrl := by
  obtain ⟨i, user, huser, rfl, -, -⟩ := SignUpRun.exists_account_of_final h
  obtain ⟨uid, imageUrl, hregistered, -⟩ := r.exists_registered i
  have hmem : user.uid ∈ (r.accountsOf i).map AuthUser.uid := List.mem_map_of_mem huser
  rw [hregistered.uid, List.mem_singleton] at hmem
  exact ⟨i, imageUrl, hmem ▸ hregistered⟩

/-- A leaf below a value is the value at its key. -/
theorem lookup_of_leaf {v : Value} {key : String} {x : Scalar} (h : v.leaf [key] = some x) :
    v.children.lookup key = some (.scalar x) := by
  rw [Value.leaf_cons, Option.bind_eq_some_iff] at h
  obtain ⟨w, hw, hleaf⟩ := h
  cases w with
  | scalar y => rw [hw, Option.some.inj hleaf]
  | _ => cases hleaf

/-- A value with the leaves of a registered profile is its record. -/
theorem Registered.exists_record {i : ι} {uid imageUrl : String} (h : r.Registered i uid imageUrl)
    {v : Value} (hleaf : ∀ q, v.leaf q = r.final (["users", uid] ++ q)) :
    ∃ entries, v = .dict entries ∧ (r.signUps i).IsRecord imageUrl entries := by
  have hfield : ∀ name s, (name, Value.string s) ∈ profileValues (r.signUps i).userName
      (r.signUps i).userEmail (r.signUps i).mobileNo (some imageUrl) →
      v.children.lookup name = some (.string s) := by
    intro name s he
    exact lookup_of_leaf ((hleaf [name]).trans (h.final_apply he))
  have hname := hfield "fullName" (r.signUps i).userName (by simp [profileValues])
  refine ⟨v.children, Value.eq_dict_of_lookup (by decide) hname, hname, ?_, ?_, ?_⟩
  · exact hfield _ _ (by simp [profileValues])
  · exact hfield _ _ (by simp [profileValues])
  · exact hfield _ _ (by simp [profileValues])

/-! ## The snapshot of all users -/

section Users

variable (snapshot : FilledSnapshot r.final ["users"])

/-- The leaves below a record are those of the database. -/
theorem leaf_of_mem_children {uid : String} {v : Value}
    (he : (uid, v) ∈ snapshot.value.children) (q : Path) :
    v.leaf q = r.final (["users", uid] ++ q) := by
  have hlookup := AssocList.lookup_of_mem snapshot.nested.nodup_keys he
  have hleaf : snapshot.value.leaf (uid :: q) = v.leaf q := by
    rw [Value.leaf_cons, hlookup, Option.bind_some]
  exact hleaf.symm.trans (snapshot.leaf_eq (uid :: q))

/-- A record below `users` is that of a registered user. -/
theorem exists_record_of_mem_children {uid : String} {v : Value}
    (he : (uid, v) ∈ snapshot.value.children) :
    ∃ i imageUrl entries, r.Registered i uid imageUrl ∧ v = .dict entries ∧
      (r.signUps i).IsRecord imageUrl entries := by
  have hnested := snapshot.nested.of_mem_children he
  have hleaf := leaf_of_mem_children snapshot he
  obtain ⟨q, x, hx⟩ := (snapshot.filled_of_mem_children he).exists_leaf hnested
  obtain ⟨i, imageUrl, hregistered⟩ := exists_registered_of_final ((hleaf q).symm.trans hx)
  obtain ⟨entries, hdict, hrecord⟩ := hregistered.exists_record hleaf
  exact ⟨i, imageUrl, entries, hregistered, hdict, hrecord⟩

/-- A registered user has a record below `users`. -/
theorem Registered.exists_mem_children {i : ι} {uid imageUrl : String}
    (h : r.Registered i uid imageUrl) : ∃ v, (uid, v) ∈ snapshot.value.children := by
  have hname : snapshot.value.leaf [uid, "fullName"] = some (.string (r.signUps i).userName) :=
    (snapshot.leaf_eq _).trans
      (h.final_apply (v := .string (r.signUps i).userName) (by simp [profileValues]))
  rw [Value.leaf_cons, Option.bind_eq_some_iff] at hname
  obtain ⟨v, hv, -⟩ := hname
  exact ⟨v, (AssocList.lookup_eq_some_iff_mem snapshot.nested.nodup_keys).mp hv⟩

/-- The list that is made of the records has each registered user but the viewer. -/
theorem mem_filterMap_listedUser_iff (viewer : Option AuthUser) (x : UserResponse) :
    x ∈ snapshot.value.children.filterMap (listedUser viewer) ↔
      ∃ i uid imageUrl, r.Registered i uid imageUrl ∧ viewer.map AuthUser.uid ≠ some uid ∧
        x = (r.signUps i).listed uid imageUrl := by
  rw [List.mem_filterMap]
  constructor
  · rintro ⟨⟨uid, v⟩, he, hlisted⟩
    -- a listed record is one that was registered
    obtain ⟨i, imageUrl, entries, hregistered, rfl, hrecord⟩ :=
      exists_record_of_mem_children snapshot he
    have hother := (userId_of_listedUser hlisted).2
    rw [hrecord.listedUser_of_ne hother] at hlisted
    exact ⟨i, uid, imageUrl, hregistered, hother, (Option.some.inj hlisted).symm⟩
  · rintro ⟨i, uid, imageUrl, hregistered, hother, rfl⟩
    -- a registered record is among the children, and is listed
    obtain ⟨v, he⟩ := hregistered.exists_mem_children snapshot
    obtain ⟨entries, rfl, hrecord⟩ := hregistered.exists_record
      (leaf_of_mem_children snapshot he)
    exact ⟨_, he, hrecord.listedUser_of_ne hother⟩

/-- The loop of `fetchUsers` reads the records of a run without an error. -/
theorem fetchUsersLoop_eq_ok (viewer : Option AuthUser) :
    fetchUsersLoop viewer snapshot.value.children [] =
      .ok (snapshot.value.children.filterMap (listedUser viewer)) := by
  refine (fetchUsersLoop_eq_ok_iff _ _ _ _).mpr ⟨?_, rfl⟩
  rintro ⟨uid, v⟩ he userDict hdict
  obtain ⟨i, imageUrl, entries, -, rfl, hrecord⟩ := exists_record_of_mem_children snapshot he
  rw [← Option.some.inj hdict]
  exact ⟨_, hrecord.decodeUserResponse_eq⟩

end Users

end RegistrationRun

/-! ## Both readers -/

/-- Both readers deliver what was registered. -/
structure ReadsBack {ι : Type} [DecidableEq ι] (r : RegistrationRun ι) : Prop where
  /-- Each call has registered a user, with the URL of its image. -/
  registered : ∀ i, ∃ uid imageUrl, r.Registered i uid imageUrl
  /-- The list of any viewer has each registered user but the viewer, once. -/
  listed : ∀ (viewer : Option AuthUser) (snapshot : FilledSnapshot r.final ["users"]),
    ∃ users : List UserResponse,
      (∀ results, Settles (fetchUsers viewer fun users error =>
          .complete (users, error) .done).issued
        [⟨.observeSingleEvent ["users"], .value snapshot.value⟩] results ↔
          results = [(users, none)]) ∧
      (users.map UserResponse.userId).Nodup ∧
      ∀ x, x ∈ users ↔ ∃ i uid imageUrl, r.Registered i uid imageUrl ∧
        viewer.map AuthUser.uid ≠ some uid ∧ x = (r.signUps i).listed uid imageUrl
  /-- A read of a registered user delivers the same. -/
  read : ∀ i uid imageUrl, r.Registered i uid imageUrl →
    ∀ (snapshot : FilledSnapshot r.final ["users", uid]) results,
      Settles (fetchCurrentUser uid fun user error => .complete (user, error) .done).issued
        [⟨.observeSingleEvent ["users", uid], .value snapshot.value⟩] results ↔
          results = [(some ((r.signUps i).logged uid imageUrl), none)]

/-- After every run of sign-ups that complete without an error both readers deliver what was
registered. -/
theorem readsBack {ι : Type} [DecidableEq ι] (r : RegistrationRun ι) : ReadsBack r where
  registered i := by
    obtain ⟨uid, imageUrl, h, -⟩ := r.exists_registered i
    exact ⟨uid, imageUrl, h⟩
  -- the read of the list ends without an error of the decoder
  listed viewer snapshot := by
    have hloop := RegistrationRun.fetchUsersLoop_eq_ok snapshot viewer
    refine ⟨snapshot.value.children.filterMap (listedUser viewer), fun results => ?_,
      (FetchedUsers.ofSnapshot snapshot.nested hloop).nodup,
      RegistrationRun.mem_filterMap_listedUser_iff snapshot viewer⟩
    rw [fetchUsers, Prog.issued_issue, Prog.issued_done]
    refine (settles_reply_iff ?_).trans (Iff.of_eq (congrArg _ ?_))
    · simp [hloop]
    · simp [hloop]
  -- the record of a registered user is a dictionary with its fields
  read i uid imageUrl h snapshot results := by
    obtain ⟨entries, hdict, hrecord⟩ := h.exists_record snapshot.leaf_eq
    simp only [fetchCurrentUser, child_of_isValidKey h.isValidKey, Prog.issued_issue,
      Prog.issued_done]
    refine (settles_reply_iff ?_).trans (Iff.of_eq (congrArg _ ?_))
    · simp [hdict, Value.exists_, Value.asDictionary]
    · simp [hdict, Value.exists_, Value.asDictionary, hrecord.fullName, hrecord.userEmail,
        hrecord.profileImageUrl, Value.asString, SignUp.logged]

/-- A sign-up that completes without an error. -/
def registeredRun : RegistrationRun Unit where
  signUps _ := oneByteSignUp
  trace := [((), ⟨.createUser "email" "password", ⟨some ⟨"u", none⟩, none⟩⟩),
    ((), ⟨.putData oneByteSignUp.upload.reference [0], ⟨some ⟨[]⟩, none⟩⟩),
    ((), ⟨.downloadURL oneByteSignUp.upload.reference, ⟨some "url", none⟩⟩),
    ((), ⟨oneByteSignUp.request "u" (some "url"), none⟩)]
  results := Function.const Unit [none]
  interleaves := by
    have h : ∃ results, Interleaves (fun _ : Unit => oneByteSignUp.body.issued)
        [((), ⟨.createUser "email" "password", ⟨some ⟨"u", none⟩, none⟩⟩),
          ((), ⟨.putData oneByteSignUp.upload.reference [0], ⟨some ⟨[]⟩, none⟩⟩),
          ((), ⟨.downloadURL oneByteSignUp.upload.reference, ⟨some "url", none⟩⟩),
          ((), ⟨oneByteSignUp.request "u" (some "url"), none⟩)]
        results ∧ results = fun _ => [none] := by
      refine ⟨_, .reply_first _ (by exact rfl) (.reply_first _ (by exact rfl)
        (.reply_first _ (by exact rfl) (.reply_first _ (by exact rfl) (.nil ?_)))), ?_⟩
      · exact fun _ => rfl
      · exact funext fun _ => rfl
    obtain ⟨_, h, rfl⟩ := h
    exact h
  decided i e he := by
    simp only [List.mem_cons, Prod.mk.injEq, List.not_mem_nil, or_false] at he
    rcases he with ⟨-, rfl⟩ | ⟨-, rfl⟩ | ⟨-, rfl⟩ | ⟨-, rfl⟩ <;>
      simp [Event.Decided, Outcome.Decided, SignUp.request]
  legal i user huser := by
    obtain rfl : user = ⟨"u", none⟩ := List.mem_singleton.mp huser
    decide
  fresh _ _ _ _ _ _ _ := rfl
  completes _ := rfl

/-- What a read of all users gives after it. -/
def registeredSnapshot : FilledSnapshot registeredRun.final ["users"] where
  value := .dict [("u", .dict (profileValues "name" "email" "mobile" (some "url")))]
  nested := by
    have hrecord : (Value.dict (profileValues "name" "email" "mobile" (some "url"))).Nested :=
      .dict (by decide) (by simp [profileValues, Value.Nested.scalar])
    exact .dict (by decide) (by simpa using hrecord)
  leaf_eq q := by
    have hfinal : registeredRun.final =
        applyAll (oneByteSignUp.profileOps "u" (some "url")) fun _ => none := rfl
    rw [hfinal]
    -- the fields stand below the user, and there is nothing elsewhere
    match q with
    | [] => rfl
    | [uid] =>
      by_cases h : "u" = uid <;>
        simp [Value.leaf_dict_singleton, applyAll, SignUp.profileOps, profileValues, Op.apply, h]
    | uid :: field :: q =>
      by_cases h : "u" = uid
      · subst h
        by_cases hfield : field ∈ ["fullName", "userEmail", "userMobile", "profileImageUrl"]
        · simp only [List.mem_cons, List.not_mem_nil, or_false] at hfield
          rcases hfield with rfl | rfl | rfl | rfl <;> rfl
        · have hnone : (profileValues "name" "email" "mobile" (some "url")).lookup field = none :=
            AssocList.lookup_eq_none_of_notMem_keys hfield
          rw [Value.leaf_dict_singleton, if_pos rfl, Value.leaf_cons, Value.children, hnone]
          simp only [List.mem_cons, List.not_mem_nil, or_false, not_or] at hfield
          obtain ⟨h₁, h₂, h₃, h₄⟩ := hfield
          simp [applyAll, SignUp.profileOps, profileValues, Op.apply, h₂, h₃, h₄, Ne.symm h₁,
            Ne.symm h₂, Ne.symm h₃, Ne.symm h₄]
      · simp [Value.leaf_dict_singleton, applyAll, SignUp.profileOps, profileValues, Op.apply, h]
  filled := by
    have hrecord : (Value.dict (profileValues "name" "email" "mobile" (some "url"))).Filled :=
      .dict (by decide) (by simp [profileValues, Value.Filled.scalar])
    exact .inr (.dict (by decide) (by simpa using hrecord))

example : fetchUsersLoop none registeredSnapshot.value.children [] =
    .ok [oneByteSignUp.listed "u" "url"] := by rfl

/-- The sign-ups of two users. -/
def signUpOf : Bool → SignUp
  | false => oneByteSignUp
  | true => ⟨"second", "other name", "other email", "other mobile", "password", ⟨some [1]⟩⟩

/-- The account of each, and the URL of the image. -/
def accountOf : Bool → AuthUser × String
  | false => (⟨"u", none⟩, "url")
  | true => (⟨"v", none⟩, "other url")

/-- The replies to a sign-up that succeeds. -/
def repliesOf (b : Bool) : List Event :=
  [⟨.createUser (signUpOf b).userEmail (signUpOf b).password, ⟨some (accountOf b).1, none⟩⟩,
    ⟨.putData (signUpOf b).upload.reference ((signUpOf b).profileImg.jpegData.getD []),
      ⟨some ⟨[]⟩, none⟩⟩,
    ⟨.downloadURL (signUpOf b).upload.reference, ⟨some (accountOf b).2, none⟩⟩,
    ⟨(signUpOf b).request (accountOf b).1.uid (some (accountOf b).2), none⟩]

/-- The replies to both, with those to the second between those to the first. -/
def twoReplies : List (Bool × Event) :=
  ((repliesOf false).take 2).map (Prod.mk false) ++ (repliesOf true).map (Prod.mk true) ++
    ((repliesOf false).drop 2).map (Prod.mk false)

/-- Each call creates its account. -/
theorem accounts_project_twoReplies (b : Bool) :
    accounts (project b twoReplies) = [(accountOf b).1] := by
  cases b <;> rfl

/-- Two sign-ups at the same time that complete without an error. -/
def twoSignUps : RegistrationRun Bool where
  signUps := signUpOf
  trace := twoReplies
  results := Function.const Bool [none]
  interleaves := by
    have h : ∃ results, Interleaves (fun b => (signUpOf b).body.issued) twoReplies results ∧
        results = Function.const Bool [none] := by
      refine ⟨_, .reply_first _ (by exact rfl) (.reply_first _ (by exact rfl)
        (.reply_first _ (by exact rfl) (.reply_first _ (by exact rfl)
        (.reply_first _ (by exact rfl) (.reply_first _ (by exact rfl)
        (.reply_first _ (by exact rfl) (.reply_first _ (by exact rfl) (.nil ?_)))))))), ?_⟩
      · rintro (_ | _) <;> rfl
      · funext b
        cases b <;> rfl
    obtain ⟨_, h, rfl⟩ := h
    exact h
  decided b e he := by
    have hmem : e ∈ repliesOf false ∨ e ∈ repliesOf true := by
      simp only [twoReplies, List.mem_append, List.mem_map, Prod.mk.injEq] at he
      rcases he with (⟨e', he', -, rfl⟩ | ⟨e', he', -, rfl⟩) | ⟨e', he', -, rfl⟩
      · exact .inl (List.mem_of_mem_take he')
      · exact .inr he'
      · exact .inl (List.mem_of_mem_drop he')
    rcases hmem with hmem | hmem
    all_goals
      simp only [repliesOf, List.mem_cons, List.not_mem_nil, or_false] at hmem
      rcases hmem with rfl | rfl | rfl | rfl <;>
        simp [Event.Decided, Outcome.Decided, SignUp.request]
  legal b user huser := by
    rw [accounts_project_twoReplies, List.mem_singleton] at huser
    rw [huser]
    cases b <;> decide
  fresh b b' user huser user' huser' huid := by
    rw [accounts_project_twoReplies, List.mem_singleton] at huser huser'
    rw [huser, huser'] at huid
    cases b <;> cases b' <;> first | rfl | exact absurd huid (by decide)
  completes _ := rfl

/-- Both readers deliver what two users have registered at the same time. -/
theorem readsBack_twoSignUps :
    twoSignUps.Registered false "u" "url" ∧ twoSignUps.Registered true "v" "other url" ∧
      ReadsBack twoSignUps :=
  ⟨⟨rfl, rfl⟩, ⟨rfl, rfl⟩, readsBack twoSignUps⟩

end LearnCode
