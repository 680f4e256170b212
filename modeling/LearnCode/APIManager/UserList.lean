import LearnCode.APIManager.DatabaseManager
import LearnCode.Library.AssocList

/-!
# The list of users

`fetchUsers` decodes the records below `users`, leaves out the signed-in user, and gives up at the
first dictionary that cannot be decoded. What it delivers is the list of the decoded records, one
for each key.

## Main definitions

* `listedUser`: the user that is listed for a record;
* `Decodes`: the record is no dictionary, or a dictionary that can be decoded;
* `FetchedUsers`: a list that `fetchUsers` may deliver.

## Main results

* `fetchUsersLoop_eq_ok_iff`: when the loop ends without an error, and its list;
* `FetchedUsers.ofSnapshot`: the list of a snapshot has distinct ids, without the signed-in user's.
-/

namespace LearnCode.DatabaseManager

/-- The user that is listed for a record: none if it is no dictionary or that of the signed-in
user. -/
def listedUser (currentUser : Option AuthUser) (entry : String × Value) : Option UserResponse := do
  let userDict ← entry.2.asDictionary
  let userResponse ← (decodeUserResponse userDict).toOption
  if currentUser.map AuthUser.uid ≠ some entry.1 then
    some { userResponse with userId := some entry.1 }
  else none

/-- A listed user has the key of its record, which is not that of the signed-in user. -/
theorem userId_of_listedUser {currentUser : Option AuthUser} {entry : String × Value}
    {x : UserResponse} (h : listedUser currentUser entry = some x) :
    x.userId = some entry.1 ∧ currentUser.map AuthUser.uid ≠ some entry.1 := by
  simp only [listedUser, Option.bind_eq_bind, Option.bind_eq_some_iff] at h
  obtain ⟨_, -, _, -, hlisted⟩ := h
  obtain ⟨hother, heq⟩ := Option.ite_none_right_eq_some.mp hlisted
  rw [← Option.some.inj heq]
  exact ⟨rfl, hother⟩

/-- The record is no dictionary, or a dictionary that can be decoded. -/
def Decodes (entry : String × Value) : Prop :=
  ∀ userDict, entry.2.asDictionary = some userDict →
    ∃ userResponse, decodeUserResponse userDict = .ok userResponse

/-- The loop goes on after such a record, with the user that is listed for it. -/
theorem fetchUsersLoop_cons_of_decodes {currentUser : Option AuthUser} {entry : String × Value}
    (h : Decodes entry) (children : List (String × Value)) (users : List UserResponse) :
    fetchUsersLoop currentUser (entry :: children) users =
      fetchUsersLoop currentUser children (users ++ (listedUser currentUser entry).toList) := by
  obtain ⟨userId, value⟩ := entry
  cases hdict : value.asDictionary with
  | none => simp [fetchUsersLoop, listedUser, hdict]
  | some userDict =>
    obtain ⟨userResponse, hdecode⟩ := h userDict hdict
    -- the signed-in user is left out
    by_cases hother : currentUser.map AuthUser.uid ≠ some userId
    · simp only [fetchUsersLoop, listedUser, hdict, hdecode, Except.toOption, Option.bind_eq_bind,
        Option.bind_some, if_pos hother, Option.toList_some]
    · simp only [fetchUsersLoop, listedUser, hdict, hdecode, Except.toOption, Option.bind_eq_bind,
        Option.bind_some, if_neg hother, Option.toList_none, List.append_nil]

/-- The loop ends with an error at any other record. -/
theorem exists_fetchUsersLoop_eq_error {currentUser : Option AuthUser} {entry : String × Value}
    (h : ¬Decodes entry) (children : List (String × Value)) (users : List UserResponse) :
    ∃ error, fetchUsersLoop currentUser (entry :: children) users = .error error := by
  obtain ⟨userId, value⟩ := entry
  simp only [Decodes, not_forall, not_exists] at h
  obtain ⟨userDict, hdict, hfails⟩ := h
  cases hdecode : decodeUserResponse userDict with
  | ok userResponse => exact absurd hdecode (hfails userResponse)
  | error error => exact ⟨error, by simp only [fetchUsersLoop, hdict, hdecode]⟩

/-- The loop ends without an error exactly if each dictionary can be decoded, and has then listed
the records. -/
theorem fetchUsersLoop_eq_ok_iff (currentUser : Option AuthUser) (children : List (String × Value))
    (users result : List UserResponse) :
    fetchUsersLoop currentUser children users = .ok result ↔
      (∀ entry ∈ children, Decodes entry) ∧
      result = users ++ children.filterMap (listedUser currentUser) := by
  induction children generalizing users with
  | nil => simp [fetchUsersLoop, eq_comm]
  | cons entry children ih =>
    rw [List.forall_mem_cons]
    by_cases hdecodes : Decodes entry
    -- the induction is for any users that have been listed before
    · rw [fetchUsersLoop_cons_of_decodes hdecodes, ih, and_iff_right hdecodes, List.append_assoc]
      cases hlisted : listedUser currentUser entry with
      | none => simp [List.filterMap_cons_none hlisted]
      | some x => simp [List.filterMap_cons_some hlisted]
    · -- the error ends the loop, whatever follows
      obtain ⟨error, herror⟩ :=
        @exists_fetchUsersLoop_eq_error currentUser entry hdecodes children users
      rw [herror]
      exact iff_of_false nofun fun h => hdecodes h.1.1

/-- A list of users that `fetchUsers` may deliver. -/
structure FetchedUsers (currentUser : Option AuthUser) where
  users : List UserResponse
  /-- No two users have the same id. -/
  nodup : (users.map UserResponse.userId).Nodup
  /-- Each user has an id, which is not that of the signed-in user. -/
  others : ∀ x ∈ users, ∃ userId, x.userId = some userId ∧
    currentUser.map AuthUser.uid ≠ some userId

/-- The list that `fetchUsers` delivers for a snapshot. -/
def FetchedUsers.ofSnapshot {currentUser : Option AuthUser} {snapshot : Value}
    (hnested : snapshot.Nested) {users : List UserResponse}
    (h : fetchUsersLoop currentUser snapshot.children [] = .ok users) :
    FetchedUsers currentUser where
  users := users
  nodup := by
    obtain ⟨-, rfl⟩ := (fetchUsersLoop_eq_ok_iff _ _ _ _).mp h
    rw [List.nil_append, List.Nodup, List.pairwise_map, List.pairwise_filterMap]
    -- the ids are the keys of the records, which are distinct
    refine (List.pairwise_map.mp hnested.nodup_keys).imp ?_
    intro entry entry' hne x hx y hy
    rw [(userId_of_listedUser hx).1, (userId_of_listedUser hy).1]
    simpa using hne
  others := by
    obtain ⟨-, rfl⟩ := (fetchUsersLoop_eq_ok_iff _ _ _ _).mp h
    intro x hx
    obtain ⟨entry, -, hentry⟩ := List.mem_filterMap.mp hx
    exact ⟨entry.1, userId_of_listedUser hentry⟩

end LearnCode.DatabaseManager
