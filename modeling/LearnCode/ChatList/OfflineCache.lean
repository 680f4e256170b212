import LearnCode.APIManager.UserList
import LearnCode.Library.Transition

/-!
# The offline cache of users

Each online refresh of the chat list adds to the table `Users` the users whose e-mail no row
carries, and the offline list is made of the rows. Users without an e-mail are added each time, and
rows are never changed. No user is cached twice, and the offline list shows the users as they were
in the last refreshes, in the runs whose lists meet the conditions below.

## Main definitions

* `State` and `machine`: the table, with the lists of the refreshes so far;
* `NoDuplicates`: no id is cached twice, and the same list adds nothing when it is appended again;
* `RefinesOnline`: the offline list shows the users as in the last refresh that contained them;
* `Carried`: the e-mail of a user is carried by a row, or by an earlier user of the list;
* `Recognised` and `Unchanged`: the conditions on a list.

## Main results

* `appendUserData_concat` and `mem_appendUserData_iff`: what a refresh adds;
* `noDuplicates_iff_recognised` and `refinesOnline_iff_unchanged`: when the states of a run meet the
  two requirements.
-/

namespace LearnCode

/-- A row of the table `Users`. -/
structure Users where
  userId : Option String
  fullName : Option String
  userEmail : Option String
deriving DecidableEq

/-- `saveUserData`: a row is inserted. -/
def DataModel.saveUserData (user : UserResponse) (users : List Users) : List Users :=
  users ++ [⟨user.userId, user.fullName, user.userEmail⟩]

/-- `userDataExistsInCoreData`: a fetch of the rows with the e-mail of the user finds some. -/
def PersistenceStorage.userDataExistsInCoreData (users : List Users) (userData : UserResponse) :
    Bool :=
  match userData.userEmail with
  | none => false
  | some userEmail => 0 < (users.filter fun row => row.userEmail == some userEmail).length

namespace ChatListViewController

open Transition DatabaseManager DataModel PersistenceStorage

/-- `appendUserData`. -/
def appendUserData (data : List UserResponse) (users : List Users) : List Users :=
  data.foldl (fun users data =>
    if userDataExistsInCoreData users data then users else saveUserData data users) users

/-- The branch of `fetchAllData` without a connection, on the rows in the order in which
`getAllUser` fetches them: the list of users that is shown. -/
def fetchAllDataOffline (currentUser : String) (fetched : List Users) : List UserResponse :=
  fetched.foldl (fun userListData data =>
    if data.userId ≠ some currentUser then
      userListData ++ [⟨data.userId, data.fullName, data.userEmail, some "", some "null"⟩]
    else userListData) []

/-- The cache of a signed-in user. -/
structure State (currentUser : Option AuthUser) where
  /-- The table `Users`. -/
  users : List Users
  /-- History: the lists of the refreshes, the latest first. -/
  refreshes : List (FetchedUsers currentUser)

/-- The cache from the empty table on; each step is a refresh with a list of users. -/
def machine (currentUser : Option AuthUser) :
    Machine (State currentUser) (FetchedUsers currentUser) where
  init s := s = ⟨[], []⟩
  next s data := some ⟨appendUserData data.users s.users, data :: s.refreshes⟩

/-! ## The requirements -/

/-- No two rows have the same id, the list of the step adds no row when it is appended again, and
the offline list shows each id at most once. -/
structure NoDuplicates {currentUser : Option AuthUser}
    (st : Step (State currentUser) (FetchedUsers currentUser)) : Prop where
  nodup : (st.post.users.map Users.userId).Nodup
  stable : appendUserData st.action.users st.post.users = st.post.users
  offline : ∀ (viewer : String) (fetched : List Users), fetched.Perm st.post.users →
    ((fetchAllDataOffline viewer fetched).map UserResponse.userId).Nodup

/-- The user of the last refresh that contained an id. -/
def lastSeen {currentUser : Option AuthUser} (refreshes : List (FetchedUsers currentUser))
    (userId : Option String) : Option UserResponse :=
  refreshes.findSome? fun data => data.users.find? fun x => x.userId = userId

/-- A listed user is shown with the id, the name and the e-mail of another record. -/
structure Shows (y x : UserResponse) : Prop where
  userId : y.userId = x.userId
  fullName : y.fullName = x.fullName
  userEmail : y.userEmail = x.userEmail

/-- The offline list shows each user of the last refresh, and every user as in the last refresh that
contained its id, in whatever order the rows are fetched. -/
structure RefinesOnline (user : AuthUser)
    (st : Step (State (some user)) (FetchedUsers (some user))) : Prop where
  listed : ∀ fetched : List Users, fetched.Perm st.post.users →
    ∀ x ∈ st.action.users, ∃ y ∈ fetchAllDataOffline user.uid fetched, Shows y x
  current : ∀ fetched : List Users, fetched.Perm st.post.users →
    ∀ y ∈ fetchAllDataOffline user.uid fetched, ∀ x,
      lastSeen st.post.refreshes y.userId = some x → Shows y x

/-! ## The conditions -/

/-- The user has an e-mail that a row carries, or an earlier user of the list. -/
def Carried (users : List Users) (earlier : List UserResponse) (x : UserResponse) : Prop :=
  x.userEmail ≠ none ∧
    (x.userEmail ∈ users.map Users.userEmail ∨
      x.userEmail ∈ earlier.map UserResponse.userEmail)

/-- Each user of the list has an e-mail, and one whose id is cached is recognised by it. -/
structure Recognised {currentUser : Option AuthUser} (s : State currentUser)
    (data : FetchedUsers currentUser) : Prop where
  hasEmail : ∀ x ∈ data.users, x.userEmail ≠ none
  carried : ∀ earlier x, earlier ++ [x] <+: data.users →
    x.userId ∈ s.users.map Users.userId → Carried s.users earlier x

/-- The rows with the id of a user of the list have its name and e-mail, and a user whose e-mail is
carried already is cached under its own id. -/
structure Unchanged {currentUser : Option AuthUser} (s : State currentUser)
    (data : FetchedUsers currentUser) : Prop where
  same : ∀ x ∈ data.users, ∀ row ∈ s.users, row.userId = x.userId →
    row.fullName = x.fullName ∧ row.userEmail = x.userEmail
  cached : ∀ earlier x, earlier ++ [x] <+: data.users → Carried s.users earlier x →
    x.userId ∈ s.users.map Users.userId

/-! ## What a refresh adds -/

/-- A user is found if its e-mail is carried by a row. -/
theorem userDataExistsInCoreData_iff (users : List Users) (x : UserResponse) :
    userDataExistsInCoreData users x = true ↔
      x.userEmail ≠ none ∧ x.userEmail ∈ users.map Users.userEmail := by
  unfold userDataExistsInCoreData
  cases x.userEmail with
  | none => simp
  | some userEmail => simp [List.length_pos_iff, List.filter_eq_nil_iff]

/-- The last user of a list is added if it is not found after the others. -/
theorem appendUserData_concat (data : List UserResponse) (x : UserResponse) (users : List Users) :
    appendUserData (data ++ [x]) users =
      if userDataExistsInCoreData (appendUserData data users) x then appendUserData data users
      else saveUserData x (appendUserData data users) :=
  List.foldl_concat _ _ _ _

/-- After a list the e-mails of the rows and of the list are carried by rows. -/
theorem mem_userEmail_appendUserData_iff {userEmail : Option String} (h : userEmail ≠ none)
    (data : List UserResponse) (users : List Users) :
    userEmail ∈ (appendUserData data users).map Users.userEmail ↔
      userEmail ∈ users.map Users.userEmail ∨ userEmail ∈ data.map UserResponse.userEmail := by
  induction data using List.reverseRecOn with
  | nil => simp [appendUserData]
  | append_singleton data x ih =>
    rw [appendUserData_concat, List.map_append, List.mem_append, ← or_assoc, ← ih]
    split_ifs with hexists
    · -- the e-mail of a user that is found is carried already
      obtain ⟨-, hcarried⟩ := (userDataExistsInCoreData_iff _ _).mp hexists
      refine ⟨.inl, ?_⟩
      rintro (hmem | hmem)
      · exact hmem
      · obtain rfl : userEmail = x.userEmail := by simpa using hmem
        exact hcarried
    · simp [saveUserData]

/-- After some users of the list the next one is found exactly if its e-mail is carried. -/
theorem exists_appendUserData_iff (users : List Users) (earlier : List UserResponse)
    (x : UserResponse) :
    userDataExistsInCoreData (appendUserData earlier users) x = true ↔
      Carried users earlier x := by
  rw [userDataExistsInCoreData_iff]
  exact and_congr_right fun h => mem_userEmail_appendUserData_iff h earlier users

/-- A user whose e-mail is carried adds nothing. -/
theorem appendUserData_of_carried {users : List Users} {earlier : List UserResponse}
    {x : UserResponse} (h : Carried users earlier x) :
    appendUserData (earlier ++ [x]) users = appendUserData earlier users := by
  rw [appendUserData_concat, if_pos ((exists_appendUserData_iff users earlier x).mpr h)]

/-- Any other user adds a row. -/
theorem appendUserData_of_not_carried {users : List Users} {earlier : List UserResponse}
    {x : UserResponse} (h : ¬Carried users earlier x) :
    appendUserData (earlier ++ [x]) users =
      appendUserData earlier users ++ [⟨x.userId, x.fullName, x.userEmail⟩] := by
  rw [appendUserData_concat, if_neg (mt (exists_appendUserData_iff users earlier x).mp h),
    saveUserData]

/-- A position of a list with one more element is the last one, or a position of the list. -/
theorem exists_prefix_concat_iff {data : List UserResponse} {x : UserResponse}
    {p : List UserResponse → UserResponse → Prop} :
    (∃ earlier y, earlier ++ [y] <+: data ++ [x] ∧ p earlier y) ↔
      p data x ∨ ∃ earlier y, earlier ++ [y] <+: data ∧ p earlier y := by
  simp only [List.prefix_concat_iff, List.append_singleton_inj]
  constructor
  · rintro ⟨earlier, y, ⟨rfl, rfl⟩ | hprefix, h⟩
    · exact .inl h
    · exact .inr ⟨earlier, y, hprefix, h⟩
  · rintro (h | ⟨earlier, y, hprefix, h⟩)
    · exact ⟨data, x, .inl ⟨rfl, rfl⟩, h⟩
    · exact ⟨earlier, y, .inr hprefix, h⟩

/-- The users of a list are at its positions. -/
theorem mem_iff_exists_earlier {data : List UserResponse} {x : UserResponse} :
    x ∈ data ↔ ∃ earlier, earlier ++ [x] <+: data := by
  constructor
  · intro h
    obtain ⟨earlier, later, rfl⟩ := List.append_of_mem h
    exact ⟨earlier, later, by simp⟩
  · rintro ⟨earlier, later, rfl⟩
    simp

/-- The rows after a list: those before it, and those of the users whose e-mails were not
carried. -/
theorem mem_appendUserData_iff (data : List UserResponse) (users : List Users) (row : Users) :
    row ∈ appendUserData data users ↔ row ∈ users ∨ ∃ earlier x, earlier ++ [x] <+: data ∧
      ¬Carried users earlier x ∧ row = ⟨x.userId, x.fullName, x.userEmail⟩ := by
  induction data using List.reverseRecOn with
  | nil => simp [appendUserData]
  | append_singleton data x ih =>
    rw [exists_prefix_concat_iff, or_left_comm, ← ih]
    by_cases hcarried : Carried users data x
    · simp [appendUserData_of_carried hcarried, hcarried]
    -- the last user adds its own row
    · simp [appendUserData_of_not_carried hcarried, hcarried, or_comm]

/-- The ids of the rows are distinct after a list if they were before, and the e-mail of each user
whose id was cached is carried. -/
theorem nodup_appendUserData_iff {data : List UserResponse}
    (hdata : (data.map UserResponse.userId).Nodup) (users : List Users) :
    ((appendUserData data users).map Users.userId).Nodup ↔
      (users.map Users.userId).Nodup ∧ ¬∃ earlier x, earlier ++ [x] <+: data ∧
        x.userId ∈ users.map Users.userId ∧ ¬Carried users earlier x := by
  induction data using List.reverseRecOn with
  | nil => simp [appendUserData]
  | append_singleton data x ih =>
    rw [List.map_append, List.nodup_append] at hdata
    obtain ⟨hnodup, -, hnew⟩ := hdata
    rw [exists_prefix_concat_iff, not_or]
    by_cases hcarried : Carried users data x
    · simp [appendUserData_of_carried hcarried, hcarried, ih hnodup]
    · -- an id of the list is cached after the earlier users only if it was before them
      have hmem : x.userId ∈ (appendUserData data users).map Users.userId ↔
          x.userId ∈ users.map Users.userId := by
        simp only [List.mem_map, mem_appendUserData_iff]
        constructor
        · rintro ⟨row, hrow | ⟨earlier, y, hprefix, -, rfl⟩, hid⟩
          · exact ⟨row, hrow, hid⟩
          · have hy : y ∈ data := mem_iff_exists_earlier.mpr ⟨earlier, hprefix⟩
            exact absurd hid (hnew _ (List.mem_map_of_mem hy) _ (by simp))
        · rintro ⟨row, hrow, hid⟩
          exact ⟨row, .inl hrow, hid⟩
      rw [appendUserData_of_not_carried hcarried, List.map_append, List.map_singleton,
        ← List.concat_eq_append, List.nodup_concat, hmem, ih hnodup]
      simp only [hcarried, not_false_eq_true, and_true]
      tauto

/-- No row is lost. -/
theorem length_le_length_appendUserData (data : List UserResponse) (users : List Users) :
    users.length ≤ (appendUserData data users).length := by
  induction data using List.reverseRecOn with
  | nil => exact le_rfl
  | append_singleton data x ih =>
    rw [appendUserData_concat]
    split_ifs
    · exact ih
    · rw [saveUserData, List.length_append]
      omega

/-- A list adds nothing if its users are all found. -/
theorem appendUserData_eq_self_iff (data : List UserResponse) (users : List Users) :
    appendUserData data users = users ↔
      ∀ x ∈ data, userDataExistsInCoreData users x = true := by
  induction data with
  | nil => simp [appendUserData]
  | cons x data ih =>
    have hcons : appendUserData (x :: data) users = appendUserData data
        (if userDataExistsInCoreData users x then users else saveUserData x users) := rfl
    rw [hcons, List.forall_mem_cons]
    by_cases hexists : userDataExistsInCoreData users x = true
    · rw [if_pos hexists, ih, and_iff_right hexists]
    · rw [if_neg hexists]
      refine iff_of_false (fun heq => ?_) (fun h => hexists h.1)
      -- a user that is not found makes the table longer
      have hlength := length_le_length_appendUserData data (saveUserData x users)
      rw [heq, saveUserData, List.length_append, List.length_singleton] at hlength
      omega

/-- A list adds nothing when it is appended again if its users all have an e-mail. -/
theorem appendUserData_twice_iff (data : List UserResponse) (users : List Users) :
    appendUserData data (appendUserData data users) = appendUserData data users ↔
      ∀ x ∈ data, x.userEmail ≠ none := by
  rw [appendUserData_eq_self_iff]
  refine forall₂_congr fun x hx => ?_
  rw [exists_appendUserData_iff]
  refine and_iff_left_of_imp fun _ => ?_
  exact .inr (List.mem_map_of_mem hx)

/-! ## The offline list -/

/-- The entry of the offline list that is made of a row. -/
def offlineUser (row : Users) : UserResponse :=
  ⟨row.userId, row.fullName, row.userEmail, some "", some "null"⟩

/-- The offline list is made of the rows of the other users. -/
theorem fetchAllDataOffline_eq (currentUser : String) (fetched : List Users) :
    fetchAllDataOffline currentUser fetched =
      (fetched.filter fun row => row.userId ≠ some currentUser).map offlineUser := by
  induction fetched using List.reverseRecOn with
  | nil => rfl
  | append_singleton fetched row ih =>
    have hlast : fetchAllDataOffline currentUser (fetched ++ [row]) =
        if row.userId ≠ some currentUser then
          fetchAllDataOffline currentUser fetched ++ [offlineUser row]
        else fetchAllDataOffline currentUser fetched := List.foldl_concat _ _ _ _
    rw [hlast, ih, List.filter_append, List.map_append]
    by_cases hother : row.userId ≠ some currentUser <;> simp [hother]

/-- Rows with distinct ids make an offline list with distinct ids. -/
theorem nodup_fetchAllDataOffline {users fetched : List Users}
    (h : (users.map Users.userId).Nodup) (hfetched : fetched.Perm users) (currentUser : String) :
    ((fetchAllDataOffline currentUser fetched).map UserResponse.userId).Nodup := by
  rw [fetchAllDataOffline_eq, List.map_map]
  have hfetchedIds : (fetched.map Users.userId).Nodup := (hfetched.map _).nodup_iff.mpr h
  exact hfetchedIds.sublist (List.filter_sublist.map Users.userId)

/-! ## No duplicates -/

/-- A refresh of a table with distinct ids makes no duplicates exactly if the users of its list are
recognised. -/
theorem noDuplicates_step_iff {currentUser : Option AuthUser} {s s' : State currentUser}
    {data : FetchedUsers currentUser} (h : (s.users.map Users.userId).Nodup)
    (hnext : (machine currentUser).next s data = some s') :
    NoDuplicates ⟨s, data, s'⟩ ↔ Recognised s data := by
  obtain rfl := Option.some.inj hnext
  have hnodup := nodup_appendUserData_iff data.nodup s.users
  rw [and_iff_right h] at hnodup
  push Not at hnodup
  constructor
  · intro hno
    exact ⟨(appendUserData_twice_iff data.users s.users).mp hno.stable, hnodup.mp hno.nodup⟩
  · intro hrecognised
    have hpost := hnodup.mpr hrecognised.carried
    exact ⟨hpost, (appendUserData_twice_iff data.users s.users).mpr hrecognised.hasEmail,
      fun viewer _ hfetched => nodup_fetchAllDataOffline hpost hfetched viewer⟩

/-- The states that a run reaches are without duplicates exactly when the users of each list are
recognised. Any list with distinct ids may be delivered without a signed-in user, and so the lists
of different signed-in users are those of a run too. -/
theorem noDuplicates_iff_recognised {currentUser : Option AuthUser} {s s' : State currentUser}
    {steps : List (Step (State currentUser) (FetchedUsers currentUser))}
    (hinit : (machine currentUser).init s) (hrun : Run (machine currentUser) s steps s') :
    (∀ st ∈ steps, NoDuplicates st) ↔ ∀ st ∈ steps, Recognised st.pre st.action := by
  have hempty : (s.users.map Users.userId).Nodup := by
    rw [show s = ⟨[], []⟩ from hinit]
    exact List.nodup_nil
  refine hrun.forall_iff (I := fun s => (s.users.map Users.userId).Nodup) hempty ?_
    (fun _ _ _ h hnext => noDuplicates_step_iff h hnext)
  intro s data s' h hrecognised hnext
  exact ((noDuplicates_step_iff h hnext).mpr hrecognised).nodup

/-- A list with one user. -/
def oneUser (fullName : String) (userEmail : Option String) : FetchedUsers (some ⟨"me", none⟩) where
  users := [⟨some "u", some fullName, userEmail, none, none⟩]
  nodup := List.nodup_singleton _
  others := by simp

/-- A user is recognised by a table whose rows all carry its e-mail. -/
theorem recognised_oneUser {s : State (some ⟨"me", none⟩)} (fullName : String) {userEmail : String}
    (h : ∀ row ∈ s.users, row.userEmail = some userEmail) :
    Recognised s (oneUser fullName (some userEmail)) := by
  have hmail : ∀ x ∈ (oneUser fullName (some userEmail)).users, x.userEmail = some userEmail := by
    simp [oneUser]
  constructor
  case hasEmail =>
    intro x hx
    rw [hmail x hx]
    exact Option.some_ne_none userEmail
  case carried =>
    intro earlier x hprefix hcached
    have hx := hmail x (mem_iff_exists_earlier.mpr ⟨earlier, hprefix⟩)
    obtain ⟨row, hrow, -⟩ := List.mem_map.mp hcached
    rw [Carried, hx]
    exact ⟨Option.some_ne_none _, .inl (List.mem_map.mpr ⟨row, hrow, h row hrow⟩)⟩

/-- A user with an e-mail is cached once by two refreshes. -/
theorem noDuplicates_iff_recognised_withEmail :
    ∃ steps s', Run (machine (some ⟨"me", none⟩)) ⟨[], []⟩ steps s' ∧ steps.length = 2 ∧
      ∀ st ∈ steps, NoDuplicates st := by
  have hrun : (machine (some ⟨"me", none⟩)).execute ⟨[], []⟩
      [oneUser "Uma" (some "u@mail"), oneUser "Uma" (some "u@mail")] = some (_, _) := rfl
  refine ⟨_, _, Run.of_execute hrun, rfl, ?_⟩
  refine (noDuplicates_iff_recognised rfl (Run.of_execute hrun)).mpr ?_
  simp only [List.forall_mem_cons]
  exact ⟨recognised_oneUser "Uma" nofun,
    recognised_oneUser "Uma" (List.forall_mem_singleton.mpr rfl), List.forall_mem_nil _⟩

/-- A user without an e-mail is cached by each of two refreshes. -/
theorem not_noDuplicates_withoutEmail :
    ∃ steps s s', Run (machine (some ⟨"me", none⟩)) s steps s' ∧
      (machine (some ⟨"me", none⟩)).init s ∧
      s'.users.map Users.userId = [some "u", some "u"] ∧ ∃ st ∈ steps, ¬NoDuplicates st := by
  have hrun : (machine (some ⟨"me", none⟩)).execute ⟨[], []⟩
      [oneUser "Uma" none, oneUser "Uma" none] = some (_, _) := rfl
  refine ⟨_, _, _, Run.of_execute hrun, rfl, rfl, _, List.mem_of_getElem? (i := 1) rfl, ?_⟩
  intro hno
  exact absurd hno.nodup (by decide)

/-! ## Agreement with the last refreshes -/

variable {user : AuthUser}

/-- What the rows keep between refreshes: none is that of the signed-in user, and each is as its
user was in the last refresh that contained it. -/
structure Mirrored (s : State (some user)) : Prop where
  others : ∀ row ∈ s.users, row.userId ≠ some user.uid
  current : ∀ row ∈ s.users, ∀ x, lastSeen s.refreshes row.userId = some x →
    row.fullName = x.fullName ∧ row.userEmail = x.userEmail

/-- The last refresh determines the users of its list. -/
theorem lastSeen_cons_of_mem {data : FetchedUsers (some user)}
    (refreshes : List (FetchedUsers (some user))) {x : UserResponse} (h : x ∈ data.users) :
    lastSeen (data :: refreshes) x.userId = some x := by
  obtain ⟨z, hz⟩ := Option.isSome_iff_exists.mp
    (List.find?_isSome.mpr ⟨x, h, decide_eq_true rfl⟩ :
      (data.users.find? fun z => z.userId = x.userId).isSome)
  -- the ids of the list are distinct
  have hid : z.userId = x.userId := by simpa using List.find?_some hz
  obtain rfl := List.inj_on_of_nodup_map data.nodup (List.mem_of_find?_eq_some hz) h hid
  rw [lastSeen, List.findSome?_cons, hz]

/-- The last refresh leaves the users that are not in its list. -/
theorem lastSeen_cons_of_notMem {data : FetchedUsers (some user)}
    (refreshes : List (FetchedUsers (some user))) {userId : Option String}
    (h : userId ∉ data.users.map UserResponse.userId) :
    lastSeen (data :: refreshes) userId = lastSeen refreshes userId := by
  have hnone : (data.users.find? fun x => x.userId = userId) = none := by
    refine List.find?_eq_none.mpr fun x hx => ?_
    simpa using fun heq : x.userId = userId => h (heq ▸ List.mem_map_of_mem hx)
  rw [lastSeen, List.findSome?_cons, hnone, lastSeen]

/-- The user that was seen last with an id has this id. -/
theorem userId_of_lastSeen {refreshes : List (FetchedUsers (some user))} {userId : Option String}
    {x : UserResponse} (h : lastSeen refreshes userId = some x) : x.userId = userId := by
  obtain ⟨data, -, hfind⟩ := List.exists_of_findSome?_eq_some h
  simpa using List.find?_some hfind

/-- A user stands at one position of a list with distinct ids. -/
theorem earlier_unique {data earlier earlier' : List UserResponse} {x : UserResponse}
    (hdata : (data.map UserResponse.userId).Nodup) (h : earlier ++ [x] <+: data)
    (h' : earlier' ++ [x] <+: data) : earlier = earlier' := by
  have hshort : ∀ {a b : List UserResponse}, a ++ [x] <+: data → b ++ [x] <+: data →
      a.length ≤ b.length → a = b := by
    intro a b ha hb hle
    have hab : a ++ [x] <+: b ++ [x] := List.prefix_of_prefix_length_le ha hb (by simpa using hle)
    rcases List.prefix_concat_iff.mp hab with heq | hprefix
    · exact List.append_cancel_right heq
    · -- `x` would stand before its own position
      have hnodup : (b ++ [x]).Nodup := hdata.of_map.sublist hb.sublist
      have hmem : x ∈ b := hprefix.subset (by simp)
      exact absurd rfl ((List.nodup_append.mp hnodup).2.2 x hmem x (List.mem_singleton_self x))
  -- of two positions one is not after the other
  rcases le_total earlier.length earlier'.length with hle | hle
  · exact hshort h h' hle
  · exact (hshort h' h hle).symm

/-- After a refresh no row is that of the signed-in user. -/
theorem Mirrored.others_appendUserData {s : State (some user)} (h : Mirrored s)
    (data : FetchedUsers (some user)) {row : Users}
    (hrow : row ∈ appendUserData data.users s.users) : row.userId ≠ some user.uid := by
  rcases (mem_appendUserData_iff _ _ _).mp hrow with hold | ⟨earlier, x, hprefix, -, rfl⟩
  · exact h.others row hold
  · obtain ⟨userId, hid, hother⟩ := data.others x (mem_iff_exists_earlier.mpr ⟨earlier, hprefix⟩)
    change x.userId ≠ some user.uid
    rw [hid]
    exact fun heq => hother heq.symm

/-- After a refresh with an unchanged list the rows are as their users were seen last. -/
theorem Mirrored.current_appendUserData {s : State (some user)} (h : Mirrored s)
    {data : FetchedUsers (some user)} (hunchanged : Unchanged s data) {row : Users}
    (hrow : row ∈ appendUserData data.users s.users) {x : UserResponse}
    (hx : lastSeen (data :: s.refreshes) row.userId = some x) :
    row.fullName = x.fullName ∧ row.userEmail = x.userEmail := by
  rcases (mem_appendUserData_iff _ _ _).mp hrow with hold | ⟨earlier, z, hprefix, -, rfl⟩
  · by_cases hlisted : row.userId ∈ data.users.map UserResponse.userId
    · obtain ⟨z, hz, hid⟩ := List.mem_map.mp hlisted
      have hsame := hunchanged.same z hz row hold hid.symm
      rw [← hid, lastSeen_cons_of_mem _ hz] at hx
      rwa [← Option.some.inj hx]
    -- a row of a user that is not in the list is as it was
    · rw [lastSeen_cons_of_notMem _ hlisted] at hx
      exact h.current row hold x hx
  -- a new row is made of the user itself
  · have hz : z ∈ data.users := mem_iff_exists_earlier.mpr ⟨earlier, hprefix⟩
    rw [lastSeen_cons_of_mem _ hz] at hx
    rw [← Option.some.inj hx]
    exact ⟨rfl, rfl⟩

/-- The entries of the offline list after a refresh are the rows. -/
theorem Mirrored.mem_fetchAllDataOffline_iff {s : State (some user)} (h : Mirrored s)
    {data : FetchedUsers (some user)} {fetched : List Users}
    (hfetched : fetched.Perm (appendUserData data.users s.users)) (y : UserResponse) :
    y ∈ fetchAllDataOffline user.uid fetched ↔
      ∃ row ∈ appendUserData data.users s.users, offlineUser row = y := by
  rw [fetchAllDataOffline_eq, List.mem_map]
  refine exists_congr fun row => and_congr_left fun _ => ?_
  rw [List.mem_filter, hfetched.mem_iff]
  exact and_iff_left_of_imp fun hrow => decide_eq_true (h.others_appendUserData data hrow)

/-- A refresh that is shown offline has an unchanged list. -/
theorem Mirrored.unchanged_of_refinesOnline {s s' : State (some user)}
    {data : FetchedUsers (some user)} (h : Mirrored s)
    (hnext : (machine (some user)).next s data = some s')
    (hrefines : RefinesOnline user ⟨s, data, s'⟩) : Unchanged s data := by
  obtain rfl := Option.some.inj hnext
  constructor
  case same =>
    intro x hx row hold hid
    have hrow : row ∈ appendUserData data.users s.users :=
      (mem_appendUserData_iff _ _ _).mpr (.inl hold)
    -- the row is still there, and is listed as it is
    have hlisted := (h.mem_fetchAllDataOffline_iff (.refl _) _).mpr ⟨row, hrow, rfl⟩
    have hseen : lastSeen (data :: s.refreshes) row.userId = some x := by
      rw [hid, lastSeen_cons_of_mem _ hx]
    have hshows := hrefines.current _ (.refl _) _ hlisted x hseen
    exact ⟨hshows.fullName, hshows.userEmail⟩
  case cached =>
    intro earlier x hprefix hcarried
    have hx : x ∈ data.users := mem_iff_exists_earlier.mpr ⟨earlier, hprefix⟩
    obtain ⟨y, hy, hshows⟩ := hrefines.listed _ (.refl _) x hx
    obtain ⟨row, hrow, rfl⟩ := (h.mem_fetchAllDataOffline_iff (.refl _) y).mp hy
    rcases (mem_appendUserData_iff _ _ _).mp hrow with hold | ⟨earlier', z, hprefix', hnot, rfl⟩
    · exact List.mem_map.mpr ⟨row, hold, hshows.userId⟩
    · -- the row would be that of `x` itself, which adds none
      have hz : z ∈ data.users := mem_iff_exists_earlier.mpr ⟨earlier', hprefix'⟩
      obtain rfl := List.inj_on_of_nodup_map data.nodup hz hx hshows.userId
      rw [earlier_unique data.nodup hprefix' hprefix] at hnot
      exact absurd hcarried hnot

/-- After a refresh with an unchanged list each of its users has a row. -/
theorem Unchanged.exists_row {s : State (some user)} {data : FetchedUsers (some user)}
    (h : Unchanged s data) {x : UserResponse} (hx : x ∈ data.users) :
    ∃ row ∈ appendUserData data.users s.users, row.userId = x.userId := by
  obtain ⟨earlier, hprefix⟩ := mem_iff_exists_earlier.mp hx
  by_cases hcarried : Carried s.users earlier x
  · -- a user whose e-mail is carried has been cached before
    obtain ⟨row, hold, hid⟩ := List.mem_map.mp (h.cached earlier x hprefix hcarried)
    exact ⟨row, (mem_appendUserData_iff _ _ _).mpr (.inl hold), hid⟩
  · exact ⟨_, (mem_appendUserData_iff _ _ _).mpr (.inr ⟨earlier, x, hprefix, hcarried, rfl⟩), rfl⟩

/-- A refresh with an unchanged list is shown offline. -/
theorem Mirrored.refinesOnline_of_unchanged {s s' : State (some user)}
    {data : FetchedUsers (some user)} (h : Mirrored s)
    (hnext : (machine (some user)).next s data = some s') (hunchanged : Unchanged s data) :
    RefinesOnline user ⟨s, data, s'⟩ := by
  obtain rfl := Option.some.inj hnext
  constructor
  case listed =>
    intro fetched hfetched x hx
    obtain ⟨row, hrow, hid⟩ := hunchanged.exists_row hx
    have hseen : lastSeen (data :: s.refreshes) row.userId = some x := by
      rw [hid, lastSeen_cons_of_mem _ hx]
    obtain ⟨hname, hemail⟩ := h.current_appendUserData hunchanged hrow hseen
    exact ⟨_, (h.mem_fetchAllDataOffline_iff hfetched _).mpr ⟨row, hrow, rfl⟩, hid, hname, hemail⟩
  case current =>
    intro fetched hfetched y hy x hseen
    obtain ⟨row, hrow, rfl⟩ := (h.mem_fetchAllDataOffline_iff hfetched y).mp hy
    obtain ⟨hname, hemail⟩ := h.current_appendUserData hunchanged hrow hseen
    exact ⟨(userId_of_lastSeen hseen).symm, hname, hemail⟩

/-- The offline lists of the states that a run reaches all show the last refreshes exactly when
the lists are unchanged. -/
theorem refinesOnline_iff_unchanged {s s' : State (some user)}
    {steps : List (Step (State (some user)) (FetchedUsers (some user)))}
    (hinit : (machine (some user)).init s) (hrun : Run (machine (some user)) s steps s') :
    (∀ st ∈ steps, RefinesOnline user st) ↔ ∀ st ∈ steps, Unchanged st.pre st.action := by
  have hempty : Mirrored s := by
    rw [show s = ⟨[], []⟩ from hinit]
    exact ⟨nofun, nofun⟩
  refine hrun.forall_iff hempty ?_ (fun _ _ _ h hnext =>
    ⟨h.unchanged_of_refinesOnline hnext, h.refinesOnline_of_unchanged hnext⟩)
  intro s data s' h hunchanged hnext
  obtain rfl := Option.some.inj hnext
  exact ⟨fun row hrow => h.others_appendUserData data hrow,
    fun row hrow x hx => h.current_appendUserData hunchanged hrow hx⟩

/-- A user is unchanged for a table whose rows are all its own. -/
theorem unchanged_oneUser {s : State (some ⟨"me", none⟩)} {fullName userEmail : String}
    (h : ∀ row ∈ s.users, row = ⟨some "u", some fullName, some userEmail⟩) :
    Unchanged s (oneUser fullName (some userEmail)) := by
  constructor
  case same =>
    intro x hx row hrow _
    obtain rfl := List.mem_singleton.mp hx
    rw [h row hrow]
    exact ⟨rfl, rfl⟩
  case cached =>
    intro earlier x hprefix hcarried
    obtain rfl := List.mem_singleton.mp (mem_iff_exists_earlier.mpr ⟨earlier, hprefix⟩)
    -- no user of the list is earlier
    obtain rfl : earlier = [] := by simpa [oneUser] using hprefix.length_le
    obtain ⟨row, hrow, -⟩ := List.mem_map.mp (by simpa using hcarried.2)
    rw [h row hrow] at hrow
    exact List.mem_map_of_mem hrow

/-- A user with its name and e-mail is shown offline after two refreshes. -/
theorem refinesOnline_iff_unchanged_sameUser :
    ∃ steps s', Run (machine (some ⟨"me", none⟩)) ⟨[], []⟩ steps s' ∧ steps.length = 2 ∧
      ∀ st ∈ steps, RefinesOnline ⟨"me", none⟩ st := by
  have hrun : (machine (some ⟨"me", none⟩)).execute ⟨[], []⟩
      [oneUser "Ugo" (some "u@mail"), oneUser "Ugo" (some "u@mail")] = some (_, _) := rfl
  refine ⟨_, _, Run.of_execute hrun, rfl, ?_⟩
  refine (refinesOnline_iff_unchanged rfl (Run.of_execute hrun)).mpr ?_
  simp only [List.forall_mem_cons]
  exact ⟨unchanged_oneUser nofun, unchanged_oneUser (List.forall_mem_singleton.mpr rfl),
    List.forall_mem_nil _⟩

/-- A user is renamed between two refreshes, and keeps its old name offline. -/
theorem not_refinesOnline_renamedUser :
    ∃ steps s s', Run (machine (some ⟨"me", none⟩)) s steps s' ∧
      (machine (some ⟨"me", none⟩)).init s ∧
      (fetchAllDataOffline "me" s'.users).map UserResponse.fullName = [some "Ugo"] ∧
      (∃ st ∈ steps, (st.action.users.map UserResponse.fullName = [some "Ute"] ∧
        ¬RefinesOnline ⟨"me", none⟩ st)) := by
  have hrun : (machine (some ⟨"me", none⟩)).execute ⟨[], []⟩
      [oneUser "Ugo" (some "u@mail"), oneUser "Ute" (some "u@mail")] = some (_, _) := rfl
  refine ⟨_, _, _, Run.of_execute hrun, rfl, rfl, _, List.mem_of_getElem? (i := 1) rfl, rfl, ?_⟩
  intro hrefines
  obtain ⟨y, hy, hshows⟩ := hrefines.listed _ (.refl _) _ (List.mem_singleton_self _)
  obtain rfl : y = _ := List.mem_singleton.mp hy
  exact absurd hshows.fullName (by decide)

end ChatListViewController

end LearnCode
