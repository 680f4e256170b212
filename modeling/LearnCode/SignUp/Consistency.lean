import LearnCode.APIManager.Endings

/-!
# Accounts and profiles after sign-ups

A sign-up creates the account, stores the image and writes the profile, in this order, and
undoes nothing when a later step fails. In a run of interleaved sign-ups each profile belongs
to the account of its own call; an account is left without a profile only by a call that
reports an error.

## Main definitions

* `Event.Decided`: a step either succeeds or fails;
* `SignUpRun`: calls of `addUser`, answered in an interleaved order;
* `HasRecord`: the profile of an account carries the data of a sign-up;
* `RollsBack`: every account has its profile, and a call that reports an error leaves no trace;
* `ConsistentWithoutRollback`: what holds although nothing is rolled back.

## Main results

* `SignUp.effects_of_settles`: what one call leaves behind;
* `consistentWithoutRollback`: what every run leaves behind;
* `not_rollsBack_failedUploadRun`: a failed upload leaves an account without a profile.
-/

namespace LearnCode

open Callback PathStore DatabaseManager

/-- The callback is given a value or an error. -/
def Outcome.Decided {α : Type} (o : Outcome α) : Prop := o.value.isSome ≠ o.error.isSome

/-- A step of a sign-up either succeeds or fails. -/
def Event.Decided : Event → Prop
  | ⟨.createUser _ _, created⟩ => created.Decided
  | ⟨.putData _ _, uploaded⟩ => uploaded.Decided
  | ⟨.downloadURL _, located⟩ => located.Decided
  | _ => True

namespace SignUp

/-- The writes of the profile of an account. -/
def profileOps (s : SignUp) (uid : String) (imageUrl : Option String) :
    List (Op String Scalar) :=
  (profileValues s.userName s.userEmail s.mobileNo imageUrl).map fun e =>
    .write ["users", uid, e.1] fun q => e.2.leaf q

/-- The names of the fields of a profile. -/
theorem mem_profileFields {s : SignUp} {imageUrl : Option String} {e : String × Value}
    (he : e ∈ profileValues s.userName s.userEmail s.mobileNo imageUrl) :
    e.1 ∈ ["fullName", "userEmail", "userMobile", "profileImageUrl"] := by
  cases imageUrl <;> simp [profileValues] at he ⊢ <;> grind

/-- The fields of a profile have different names. -/
theorem nodup_profileFields (s : SignUp) (imageUrl : Option String) :
    ((profileValues s.userName s.userEmail s.mobileNo imageUrl).map Prod.fst).Nodup := by
  cases imageUrl <;> simp [profileValues]

/-- The acknowledged update writes the fields of the profile one by one. -/
theorem databaseOps_request {s : SignUp} {uid : String} (hlegal : isValidKey uid = true)
    (imageUrl : Option String) :
    Event.databaseOps ⟨s.request uid imageUrl, (none : Option NSError)⟩ =
      s.profileOps uid imageUrl := by
  change updateOps (["users"] ++ pieces uid) _ = _
  rw [pieces_of_isValidKey hlegal, updateOps, profileOps]
  refine List.map_congr_left fun e he => ?_
  have hfield : isValidKey e.1 = true := by
    have hmem := mem_profileFields he
    simp only [List.mem_cons, List.not_mem_nil, or_false] at hmem
    rcases hmem with h | h | h | h <;> rw [h] <;> decide
  rw [pieces_of_isValidKey hfield]
  rfl

/-- What one call leaves behind, by the replies to it and by what it reports. -/
structure Effects (s : SignUp) (trace : List Event) (results : List (Option NSError)) :
    Prop where
  /-- A call that reports no error has created an account and written its profile. -/
  registered : results = [none] → ∃ user imageUrl,
    accounts trace = [user] ∧ databaseOps trace = s.profileOps user.uid imageUrl
  /-- Any other call has written nothing. -/
  unwritten : results ≠ [none] → databaseOps trace = []
  /-- A call whose image can be encoded reports once. -/
  reported : s.profileImg.jpegData ≠ none → ∃ error, results = [error]
  /-- A call that has created no account has stored no image. -/
  ordered : accounts trace = [] → storedImages trace = []

/-- What one call leaves behind, when each of its steps succeeds or fails. -/
theorem effects_of_settles {s : SignUp} {trace : List Event} {results : List (Option NSError)}
    (h : Settles s.body.issued trace results) (hdecided : ∀ e ∈ trace, e.Decided)
    (hlegal : ∀ user ∈ accounts trace, isValidKey user.uid = true) :
    s.Effects trace results := by
  cases ends_of_settles h with
  | @refused created error herror =>
    obtain ⟨value, error'⟩ := created
    obtain rfl : error' = some error := herror
    exact ⟨nofun, fun _ => rfl, fun _ => ⟨_, rfl⟩, fun _ => rfl⟩
  | nobody => exact absurd rfl (hdecided _ List.mem_cons_self)
  | notEncoded hdata => exact ⟨nofun, fun _ => rfl, fun h => absurd hdata h, nofun⟩
  | @notUploaded user upload _ _ hupload =>
    have hops : databaseOps upload = [] := hupload.no_effects.2
    exact ⟨nofun, fun _ => hops, fun _ => ⟨_, rfl⟩, nofun⟩
  | @trapped user upload _ hupload hinvalid =>
    -- the id of an account is a legal path
    have hvalid := isValidPathString_of_isValidKey (hlegal user List.mem_cons_self)
    rw [hvalid] at hinvalid
    cases hinvalid
  | @updated user upload imageUrl error hupload hvalid =>
    -- the upload has no effect on accounts and database, and the update decides
    obtain ⟨haccounts, hops⟩ := hupload.no_effects
    cases error with
    | some error =>
      refine ⟨nofun, fun _ => ?_, fun _ => ⟨_, rfl⟩, nofun⟩
      change databaseOps (upload ++ _) = []
      rw [databaseOps_append, hops]
      rfl
    | none =>
      have hlegal' : isValidKey user.uid = true := hlegal user List.mem_cons_self
      refine ⟨fun _ => ⟨user, imageUrl, ?_, ?_⟩, fun h => absurd rfl h, fun _ => ⟨_, rfl⟩, nofun⟩
      · change user :: accounts (upload ++ _) = [user]
        rw [accounts_append, haccounts]
        rfl
      · change databaseOps (upload ++ _) = _
        rw [databaseOps_append, hops, databaseOps_cons, databaseOps_request hlegal']
        simp

end SignUp

/-! ## Runs -/

/-- Calls of `addUser`, answered in an interleaved order, in which each step succeeds or
fails. -/
structure SignUpRun (ι : Type) [DecidableEq ι] where
  /-- The calls. -/
  signUps : ι → SignUp
  /-- The replies, each with its call. -/
  trace : List (ι × Event)
  /-- What each call reports. -/
  results : ι → List (Option NSError)
  /-- The replies answer all requests of the calls. -/
  interleaves : Interleaves (fun i => (signUps i).body.issued) trace results
  /-- Each step succeeds or fails. -/
  decided : ∀ i e, (i, e) ∈ trace → e.Decided
  /-- The id of a new account is a legal key. -/
  legal : ∀ i, ∀ user ∈ accounts (project i trace), isValidKey user.uid = true
  /-- No two accounts get the same id. -/
  fresh : ∀ i j, ∀ user ∈ accounts (project i trace), ∀ user' ∈ accounts (project j trace),
    user.uid = user'.uid → i = j

/-- The profile of an account carries the data of a sign-up. -/
structure HasRecord (db : Database) (uid : String) (s : SignUp) : Prop where
  userName : db ["users", uid, "fullName"] = some (.string s.userName)
  userEmail : db ["users", uid, "userEmail"] = some (.string s.userEmail)
  mobileNo : db ["users", uid, "userMobile"] = some (.string s.mobileNo)

namespace SignUpRun

variable {ι : Type} [DecidableEq ι] (r : SignUpRun ι)

/-- The accounts that a call of the run has created. -/
def accountsOf (i : ι) : List AuthUser := accounts (project i r.trace)

/-- The images that a call of the run has stored. -/
def imagesOf (i : ι) : List StorageReference := storedImages (project i r.trace)

/-- The acknowledged writes of a call of the run. -/
def writesOf (i : ι) : List (Op String Scalar) := databaseOps (project i r.trace)

/-- The acknowledged writes of the run, in their order. -/
def ops : List (Op String Scalar) := databaseOps (r.trace.map Prod.snd)

/-- The database after the run, which starts with an empty one. -/
def final : Database := applyAll r.ops fun _ => none

/-- What a call of the run leaves behind. -/
theorem effects (i : ι) : (r.signUps i).Effects (project i r.trace) (r.results i) :=
  SignUp.effects_of_settles (r.interleaves.settles i)
    (fun e he => r.decided i e (mem_project.mp he)) (r.legal i)

variable {r}

/-- A write of the run is a field of the profile of an account, by the call that created it. -/
theorem exists_registered_of_mem_ops {op : Op String Scalar} (h : op ∈ r.ops) :
    ∃ i user imageUrl, r.results i = [none] ∧ r.accountsOf i = [user] ∧
      r.writesOf i = (r.signUps i).profileOps user.uid imageUrl ∧
      op ∈ (r.signUps i).profileOps user.uid imageUrl := by
  obtain ⟨i, hi⟩ := mem_databaseOps_map_snd.mp h
  by_cases hresults : r.results i = [none]
  · obtain ⟨user, imageUrl, haccounts, hwrites⟩ := (r.effects i).registered hresults
    exact ⟨i, user, imageUrl, hresults, haccounts, hwrites, hwrites ▸ hi⟩
  -- a call that reports an error has no operation in the run
  · rw [(r.effects i).unwritten hresults] at hi
    cases hi

/-- A field of a profile is a write at its path. -/
theorem mem_profileOps {s : SignUp} {uid : String} {imageUrl : Option String}
    {op : Op String Scalar} :
    op ∈ s.profileOps uid imageUrl ↔
      ∃ e ∈ profileValues s.userName s.userEmail s.mobileNo imageUrl,
        op = .write ["users", uid, e.1] fun q => e.2.leaf q := by
  simp only [SignUp.profileOps, List.mem_map, eq_comm]

/-- Each account has its own profile. -/
theorem eq_of_uid_eq {i j : ι} {user user' : AuthUser} (hi : r.accountsOf i = [user])
    (hj : r.accountsOf j = [user']) (h : user.uid = user'.uid) : i = j := by
  have hmem : user ∈ r.accountsOf i := by simp [hi]
  have hmem' : user' ∈ r.accountsOf j := by simp [hj]
  exact r.fresh i j user hmem user' hmem' h

/-- The writes of a run are orderly. -/
theorem orderly (r : SignUpRun ι) : Orderly r.ops where
  separate a ha b hb := by
    obtain ⟨i, user, _, -, -, -, hia⟩ := exists_registered_of_mem_ops ha
    obtain ⟨j, user', _, -, -, -, hjb⟩ := exists_registered_of_mem_ops hb
    obtain ⟨e, -, rfl⟩ := mem_profileOps.mp hia
    obtain ⟨e', -, rfl⟩ := mem_profileOps.mp hjb
    by_cases h : ["users", user.uid, e.1] = ["users", user'.uid, e'.1]
    · exact .inl h
    -- all paths are those of fields, of one depth
    · exact .inr (apart_of_length_eq rfl h)
  writeOnce p v v' hv hv' := by
    obtain ⟨i, user, imageUrl, -, hi, hwrites, hmem⟩ := exists_registered_of_mem_ops hv
    obtain ⟨j, user', imageUrl', -, hj, hwrites', hmem'⟩ := exists_registered_of_mem_ops hv'
    -- the path names the account
    have huid : user.uid = user'.uid := by
      obtain ⟨e, -, heq⟩ := mem_profileOps.mp hmem
      obtain ⟨e', -, heq'⟩ := mem_profileOps.mp hmem'
      have hpath := (Op.write.inj heq).1.symm.trans (Op.write.inj heq').1
      simp only [List.cons.injEq, true_and, and_true] at hpath
      exact hpath.1
    -- one call has written both, and its fields have different names
    obtain rfl := eq_of_uid_eq hi hj huid
    rw [← hwrites', hwrites] at hmem'
    obtain ⟨e, he, heq⟩ := mem_profileOps.mp hmem
    obtain ⟨e', he', heq'⟩ := mem_profileOps.mp hmem'
    have hpath := (Op.write.inj heq).1.symm.trans (Op.write.inj heq').1
    simp only [List.cons.injEq, true_and, and_true] at hpath
    have hfield : e = e' := List.inj_on_of_nodup_map
      ((r.signUps i).nodup_profileFields imageUrl) he he' hpath
    rw [(Op.write.inj heq).2, (Op.write.inj heq').2, hfield]
  writeFirst := by
    refine List.pairwise_of_forall_mem_list fun a ha b _ p v heq => ?_
    obtain ⟨_, _, _, -, -, -, hmem⟩ := exists_registered_of_mem_ops ha
    obtain ⟨_, -, rfl⟩ := mem_profileOps.mp hmem
    cases heq

/-- A field that a call has written stands in the profile of its account. -/
theorem final_apply_of_mem_profileValues {i : ι} {uid : String} {imageUrl : Option String}
    (hwrites : r.writesOf i = (r.signUps i).profileOps uid imageUrl) {name : String}
    {v : Value} (he : (name, v) ∈ profileValues (r.signUps i).userName
      (r.signUps i).userEmail (r.signUps i).mobileNo imageUrl) :
    r.final ["users", uid, name] = v.leaf [] := by
  have hmem : Op.write ["users", uid, name] (fun q => v.leaf q) ∈ r.ops := by
    refine mem_databaseOps_map_snd.mpr ⟨i, ?_⟩
    change _ ∈ r.writesOf i
    rw [hwrites]
    exact mem_profileOps.mpr ⟨_, he, rfl⟩
  refine applyAll_apply_of_write_mem r.orderly hmem (fun hremove => ?_) _ []
  obtain ⟨_, _, _, -, -, -, hmem⟩ := exists_registered_of_mem_ops hremove
  obtain ⟨_, -, heq⟩ := mem_profileOps.mp hmem
  cases heq

/-- The profile that a call has written carries its data. -/
theorem hasRecord_of_writesOf {i : ι} {uid : String} {imageUrl : Option String}
    (hwrites : r.writesOf i = (r.signUps i).profileOps uid imageUrl) :
    HasRecord r.final uid (r.signUps i) where
  userName := final_apply_of_mem_profileValues hwrites
    (v := .string (r.signUps i).userName) (by simp [profileValues])
  userEmail := final_apply_of_mem_profileValues hwrites
    (v := .string (r.signUps i).userEmail) (by simp [profileValues])
  mobileNo := final_apply_of_mem_profileValues hwrites
    (v := .string (r.signUps i).mobileNo) (by simp [profileValues])

/-- A profile belongs to an account, and carries the data of the call that created it. -/
theorem exists_account_of_final {uid : String} {q : Path} {x : Scalar}
    (h : r.final (["users", uid] ++ q) = some x) :
    ∃ i, ∃ user ∈ r.accountsOf i, user.uid = uid ∧ r.results i = [none] ∧
      HasRecord r.final uid (r.signUps i) := by
  -- the database was empty, so the leaf has been written by a call of the run
  rcases exists_write_of_applyAll_eq_some h with h | ⟨p, v, q', hmem, hpath, -⟩
  · cases h
  · obtain ⟨i, user, imageUrl, hresults, haccounts, hwrites, hop⟩ :=
      exists_registered_of_mem_ops hmem
    obtain ⟨e, -, heq⟩ := mem_profileOps.mp hop
    rw [(Op.write.inj heq).1] at hpath
    simp only [List.cons_append, List.nil_append, List.cons.injEq, true_and] at hpath
    obtain ⟨rfl, -⟩ := hpath
    exact ⟨i, user, by simp [haccounts], rfl, hresults, hasRecord_of_writesOf hwrites⟩

end SignUpRun

/-- Every account has a profile with the data of its call, every profile belongs to an account,
and a call that reports an error leaves all three stores as they were. -/
structure RollsBack {ι : Type} [DecidableEq ι] (r : SignUpRun ι) : Prop where
  recorded : ∀ i, ∀ user ∈ r.accountsOf i, HasRecord r.final user.uid (r.signUps i)
  owned : ∀ uid q x, r.final (["users", uid] ++ q) = some x →
    ∃ i, ∃ user ∈ r.accountsOf i, user.uid = uid
  rolledBack : ∀ i error, r.results i = [some error] →
    r.accountsOf i = [] ∧ r.imagesOf i = [] ∧ r.writesOf i = []

/-- What holds of accounts and profiles although no step is undone. -/
structure ConsistentWithoutRollback {ι : Type} [DecidableEq ι] (r : SignUpRun ι) : Prop where
  /-- A call that reports no error has created an account, which has a profile with its data. -/
  registered : ∀ i, r.results i = [none] →
    ∃ user, r.accountsOf i = [user] ∧ HasRecord r.final user.uid (r.signUps i)
  /-- An account without such a profile is left only by a call that reports an error, where
  the image can be encoded. -/
  accounted : ∀ i, (r.signUps i).profileImg.jpegData ≠ none → ∀ user ∈ r.accountsOf i,
    HasRecord r.final user.uid (r.signUps i) ∨ ∃ error, r.results i = [some error]
  /-- Every profile belongs to an account, and carries the data of the call that created it. -/
  owned : ∀ uid q x, r.final (["users", uid] ++ q) = some x →
    ∃ i, ∃ user ∈ r.accountsOf i, user.uid = uid ∧ r.results i = [none] ∧
      HasRecord r.final uid (r.signUps i)
  /-- A call that reports an error has written nothing to the database. -/
  unwritten : ∀ i error, r.results i = [some error] → r.writesOf i = []
  /-- A call that reports an error and has created no account has stored no image. -/
  untouched : ∀ i error, r.results i = [some error] → r.accountsOf i = [] → r.imagesOf i = []

/-- Every run of sign-ups leaves the accounts and profiles consistent, but for the accounts,
and the images, of calls that report an error. -/
theorem consistentWithoutRollback {ι : Type} [DecidableEq ι] (r : SignUpRun ι) :
    ConsistentWithoutRollback r where
  registered i hresults := by
    obtain ⟨user, imageUrl, haccounts, hwrites⟩ := (r.effects i).registered hresults
    exact ⟨user, haccounts, SignUpRun.hasRecord_of_writesOf hwrites⟩
  accounted i hencoded user huser := by
    obtain ⟨error, hresults⟩ := (r.effects i).reported hencoded
    cases error with
    | some error => exact .inr ⟨error, hresults⟩
    | none =>
      obtain ⟨user', imageUrl, haccounts, hwrites⟩ := (r.effects i).registered hresults
      obtain rfl : user = user' := by
        change user ∈ accounts (project i r.trace) at huser
        rwa [haccounts, List.mem_singleton] at huser
      exact .inl (SignUpRun.hasRecord_of_writesOf hwrites)
  owned _ _ _ h := SignUpRun.exists_account_of_final h
  unwritten i error hresults := (r.effects i).unwritten (by simp [hresults])
  untouched i _ _ haccounts := (r.effects i).ordered haccounts

/-- A sign-up with an image of one byte. -/
def oneByteSignUp : SignUp := ⟨"file", "name", "email", "mobile", "password", ⟨some [0]⟩⟩

/-- The account is created, and its image is refused. -/
def failedUploadRun : SignUpRun Unit where
  signUps _ := oneByteSignUp
  trace := [((), ⟨.createUser "email" "password", ⟨some ⟨"u", none⟩, none⟩⟩),
    ((), ⟨.putData oneByteSignUp.upload.reference [0], ⟨none, some ⟨"refused"⟩⟩⟩)]
  results _ := [some ⟨"refused"⟩]
  interleaves := by
    have h : ∃ results, Interleaves (fun _ : Unit => oneByteSignUp.body.issued)
        [((), ⟨.createUser "email" "password", ⟨some ⟨"u", none⟩, none⟩⟩),
          ((), ⟨.putData oneByteSignUp.upload.reference [0], ⟨none, some ⟨"refused"⟩⟩⟩)]
        results ∧ results = fun _ => [some ⟨"refused"⟩] := by
      refine ⟨_, .reply_first _ (by exact rfl) (.reply_first _ (by exact rfl) (.nil ?_)), ?_⟩
      · exact fun _ => rfl
      · exact funext fun _ => rfl
    obtain ⟨_, h, rfl⟩ := h
    exact h
  decided i e he := by
    simp only [List.mem_cons, Prod.mk.injEq, List.not_mem_nil, or_false] at he
    rcases he with ⟨-, rfl⟩ | ⟨-, rfl⟩ <;> simp [Event.Decided, Outcome.Decided]
  legal i user huser := by
    obtain rfl : user = ⟨"u", none⟩ := List.mem_singleton.mp huser
    decide
  fresh _ _ _ _ _ _ _ := rfl

/-- The call reports the error, and its account stays without a profile. -/
theorem not_rollsBack_failedUploadRun : ¬RollsBack failedUploadRun := by
  intro h
  have hnone := (h.rolledBack () ⟨"refused"⟩ rfl).1
  cases hnone

end LearnCode
