import LearnCode.APIManager.Endings

/-!
# The feed

`uploadPost` writes posts with and without an image below the node that its user id names, and
`fetchUserPosts` reads the records two levels below `posts`, with six required fields. The feed
delivers exactly the saved posts if and only if every saved post was given an image that can be
encoded and a user id that is one component of a path.

## Main definitions

* `UploadRun`: calls of `uploadPost`, answered in an interleaved order, all of which complete
  without an error;
* `Upload.savedPost`: the post that a call has saved;
* `Upload.Readable`: the reader finds the record of the post and keeps it;
* `DeliversSavedPosts`: a read of the feed delivers the saved posts, each once.

## Main results

* `mem_feedEntries_iff`: what the reader makes of a snapshot depends on its leaves only;
* `Upload.exists_saves_of_settles`: what a call that completes without an error has saved;
* `UploadRun.exists_saved_of_mem_feedEntries`: each entry of the feed is at the node of a saved
  post;
* `UploadRun.mem_feedEntries_iff_exists_saved`: the entries of the feed after a run in which
  all saved posts are two levels below `posts`;
* `deliversSavedPosts_iff_forall_readable`: when the feed delivers exactly the saved posts.
-/

namespace LearnCode

open Callback PathStore

/-- The string of a leaf. -/
def Scalar.string? : Scalar → Option String
  | string s => some s
  | _ => none

/-- The cast to a string looks at the leaf of the value. -/
theorem Value.asString_eq_leaf (v : Value) : v.asString = (v.leaf []).bind Scalar.string? := by
  cases v with
  | scalar s => cases s <;> rfl
  | _ => rfl

namespace DatabaseManager

/-! ## The reader -/

/-- The post that the reader makes of the leaves of a record. -/
def postAt (field : String → Option Scalar) : Option MediaPostModel := do
  let userId ← (field "userId").bind Scalar.string?
  let content ← (field "content").bind Scalar.string?
  let fullName ← (field "fullName").bind Scalar.string?
  let postImageURL ← (field "postImage").bind Scalar.string?
  let userEmail ← (field "userEmail").bind Scalar.string?
  let userProfile ← (field "profileImageUrl").bind Scalar.string?
  return ⟨some userId, some content, some fullName, some postImageURL, some userEmail,
    some userProfile⟩

/-- The reader looks at the leaves of a record. -/
theorem mediaPost_eq_postAt (postData : List (String × Value)) :
    mediaPost postData = postAt fun key => (Value.dict postData).leaf [key] := by
  have hfield : ∀ key, (postData.lookup key).bind Value.asString =
      ((Value.dict postData).leaf [key]).bind Scalar.string? := by
    intro key
    rw [Value.leaf_cons, Option.bind_assoc]
    exact congrArg _ (funext Value.asString_eq_leaf)
  simp only [mediaPost, postAt, hfield]

/-- A record that the reader keeps has a user id. -/
theorem exists_userId_of_postAt {field : String → Option Scalar} {post : MediaPostModel}
    (h : postAt field = some post) : ∃ x, field "userId" = some x := by
  cases hfield : field "userId" with
  | none => simp [postAt, hfield] at h
  | some x => exact ⟨x, rfl⟩

/-- A post that the reader delivers has an image. -/
theorem postImage_ne_none_of_postAt {field : String → Option Scalar} {post : MediaPostModel}
    (h : postAt field = some post) : post.postImage ≠ none := by
  simp only [postAt, bind, pure, Option.bind_eq_some_iff] at h
  obtain ⟨_, -, _, -, _, -, imageUrl, -, _, -, _, -, heq⟩ := h
  rw [← Option.some.inj heq]
  exact Option.some_ne_none imageUrl

/-- The posts that the reader keeps, each with its user and its key. -/
def feedEntries (snapshot : Value) : List (String × String × MediaPostModel) :=
  snapshot.children.flatMap fun user => user.2.children.flatMap fun post =>
    ((post.2.asDictionary.bind mediaPost).toList).map fun m => (user.1, post.1, m)

/-- The nested loops of the reader collect the posts it keeps. -/
theorem fetchUserPostsLoop_eq (snapshot : Value) :
    fetchUserPostsLoop snapshot = (feedEntries snapshot).map fun e => e.2.2 := by
  calc fetchUserPostsLoop snapshot
      = snapshot.children.foldl (fun posts user => posts ++ user.2.children.flatMap fun post =>
          (post.2.asDictionary.bind mediaPost).toList) [] := by
        rw [fetchUserPostsLoop]
        congr 1
        funext posts user
        rw [← AssocList.foldl_append_eq_flatMap]
        congr 1
        funext posts post
        -- the branches of the inner loop add the post, if there is one
        cases post.2.asDictionary with
        | none => simp
        | some postData => cases h : mediaPost postData <;> simp [h]
    _ = (feedEntries snapshot).map fun e => e.2.2 := by
        rw [AssocList.foldl_append_eq_flatMap]
        simp [feedEntries, List.map_flatMap, Function.comp_def]

/-- What the reader makes of a snapshot depends on its leaves only. -/
theorem mem_feedEntries_iff {snapshot : Value} (hnested : snapshot.Nested) (user key : String)
    (post : MediaPostModel) :
    (user, key, post) ∈ feedEntries snapshot ↔
      postAt (fun field => snapshot.leaf [user, key, field]) = some post := by
  -- an entry is a post of a user whose record decodes
  have hmem : (user, key, post) ∈ feedEntries snapshot ↔
      ∃ userPosts postData, (user, userPosts) ∈ snapshot.children ∧
        (key, postData) ∈ userPosts.children ∧
        postData.asDictionary.bind mediaPost = some post := by
    simp only [feedEntries, List.mem_flatMap, List.mem_map, Option.mem_toList, Prod.exists,
      Prod.mk.injEq]
    constructor
    · rintro ⟨u, userPosts, hu, k, postData, hk, m, hm, rfl, rfl, rfl⟩
      exact ⟨userPosts, postData, hu, hk, hm⟩
    · rintro ⟨userPosts, postData, hu, hk, hm⟩
      exact ⟨user, userPosts, hu, key, postData, hk, post, hm, rfl, rfl, rfl⟩
  rw [hmem]
  constructor
  · rintro ⟨userPosts, postData, hu, hk, hm⟩
    have hlu := (AssocList.lookup_eq_some_iff_mem hnested.nodup_keys).mpr hu
    have hlk := (AssocList.lookup_eq_some_iff_mem
      (hnested.of_mem_children hu).nodup_keys).mpr hk
    obtain ⟨record, hrecord, hpost⟩ := Option.bind_eq_some_iff.mp hm
    cases postData with
    | dict entries =>
      obtain rfl : entries = record := Option.some.inj hrecord
      rw [mediaPost_eq_postAt] at hpost
      simpa [Value.leaf_cons, hlu, hlk] using hpost
    | _ => cases hrecord
  · intro h
    -- a record that decodes has a leaf, so the nodes above it are dictionaries
    obtain ⟨x, hx⟩ := exists_userId_of_postAt h
    simp only [Value.leaf_cons, Option.bind_eq_some_iff] at hx
    obtain ⟨userPosts, hlu, postData, hlk, w, hlw, -⟩ := hx
    have hu := (AssocList.lookup_eq_some_iff_mem hnested.nodup_keys).mp hlu
    have hk := (AssocList.lookup_eq_some_iff_mem (hnested.of_mem_children hu).nodup_keys).mp hlk
    have hdict : postData = .dict postData.children := Value.eq_dict_of_lookup (by decide) hlw
    refine ⟨userPosts, postData, hu, hk, ?_⟩
    rw [hdict, Value.asDictionary, Option.bind_some, mediaPost_eq_postAt, ← hdict]
    simpa only [Value.leaf_cons, hlu, hlk, Option.bind_some] using h

/-- No two entries of the feed have the same user and key. -/
theorem nodup_feedEntries {snapshot : Value} (hnested : snapshot.Nested) :
    (feedEntries snapshot).Nodup := by
  refine List.nodup_flatMap.mpr ⟨fun user hu => ?_, ?_⟩
  · refine List.nodup_flatMap.mpr ⟨fun post _ => ?_, ?_⟩
    · cases post.2.asDictionary.bind mediaPost <;> simp
    · refine List.Pairwise.of_map Prod.fst ?_ (hnested.of_mem_children hu).nodup_keys
      intro p p' hne e he he'
      obtain ⟨m, -, rfl⟩ := List.mem_map.mp he
      obtain ⟨m', -, heq⟩ := List.mem_map.mp he'
      exact hne (congrArg (fun e => e.2.1) heq).symm
  · refine List.Pairwise.of_map Prod.fst ?_ hnested.nodup_keys
    intro u u' hne e he he'
    obtain ⟨p, -, hm⟩ := List.mem_flatMap.mp he
    obtain ⟨p', -, hm'⟩ := List.mem_flatMap.mp he'
    obtain ⟨m, -, rfl⟩ := List.mem_map.mp hm
    obtain ⟨m', -, heq⟩ := List.mem_map.mp hm'
    exact hne (congrArg Prod.fst heq).symm

end DatabaseManager

/-! ## The writer -/

open DatabaseManager MessageManager

/-- The event stores a value, and is acknowledged. -/
def Event.isSaved : Event → Bool
  | ⟨.setValue _ _, none⟩ => true
  | _ => false

namespace Upload

/-- The node of the post. -/
def path (u : Upload) : Path := ["posts"] ++ pieces u.userId ++ [u.autoId.id]

/-- The post that the call stands for, with the URL of its image. -/
def post (u : Upload) (imageUrl : Option String) : MediaPostModel where
  userId := some u.userId
  content := some u.content
  fullName := some u.userName
  postImage := imageUrl
  userEmail := some u.userEmail
  userImage := some u.profile

/-- The post that the call has saved, by the replies to it: none if no record of it was stored;
its image is the one whose download URL was delivered. -/
def savedPost (u : Upload) (trace : List Event) : Option MediaPostModel :=
  if trace.any Event.isSaved then some (u.post (trace.findSome? Event.downloadUrl)) else none

/-- The record of the post has an image, and stands two levels below `posts`, where the reader
looks for it. -/
def Readable (u : Upload) : Prop := u.encoded ≠ none ∧ (pieces u.userId).length = 1

/-- The fields of a record are strings. -/
theorem exists_string_of_mem_record {u : Upload} {imageUrl : Option String}
    {e : String × Value} (he : e ∈ u.record imageUrl) : ∃ s, e.2 = .string s := by
  cases imageUrl <;> simp only [record, postValues, List.mem_append, List.mem_cons,
    List.not_mem_nil, or_false] at he
  · rcases he with rfl | rfl | rfl | rfl | rfl <;> exact ⟨_, rfl⟩
  · rcases he with (rfl | rfl | rfl | rfl | rfl) | rfl <;> exact ⟨_, rfl⟩

/-- The leaves of a record are its fields. -/
theorem exists_field_of_leaf {u : Upload} {imageUrl : Option String} {q : Path} {x : Scalar}
    (h : (Value.dict (u.record imageUrl)).leaf q = some x) : ∃ field, q = [field] := by
  cases q with
  | nil => cases h
  | cons field q =>
    rw [Value.leaf_cons, Option.bind_eq_some_iff] at h
    obtain ⟨v, hv, hleaf⟩ := h
    obtain ⟨_, _, hsplit, -⟩ := List.lookup_eq_some_iff.mp hv
    have hmem : (field, v) ∈ u.record imageUrl := by
      change (field, v) ∈ (Value.dict (u.record imageUrl)).children
      simp [hsplit]
    obtain ⟨s, rfl⟩ := exists_string_of_mem_record hmem
    cases q with
    | nil => exact ⟨field, rfl⟩
    | cons field' q => cases hleaf

/-- The reader keeps a record with an image. -/
theorem mediaPost_record_some (u : Upload) (imageUrl : String) :
    mediaPost (u.record (some imageUrl)) = some (u.post (some imageUrl)) := rfl

/-- The reader drops a record without an image. -/
theorem mediaPost_record_none (u : Upload) : mediaPost (u.record none) = none := rfl

/-- What a call has saved, by the replies to it: nothing, or a record, with or without the URL
of an image. -/
structure Saves (u : Upload) (trace : List Event) (saved : Option (Option String)) : Prop where
  /-- The record, if there is one, is the only write. -/
  ops : databaseOps trace = (saved.map fun imageUrl =>
    Op.write u.path fun q => (Value.dict (u.record imageUrl)).leaf q).toList
  /-- The saved post is that of the record. -/
  post : u.savedPost trace = saved.map u.post
  /-- There is a record without an image exactly if the image cannot be encoded. -/
  imageless : saved = some none ↔ u.encoded = none

/-- A call that completes without an error has saved nothing, or a record. -/
theorem exists_saves_of_settles {u : Upload} {trace : List Event}
    (h : Settles u.body.issued trace [none]) : ∃ saved, u.Saves trace saved := by
  generalize hresults : [none] = results at h
  cases ends_of_settles h with
  -- after an exception nothing is reported
  | trapped _ _ => cases hresults
  | saved hencoded _ =>
    obtain rfl := (List.cons.inj hresults).1
    exact ⟨some none, rfl, rfl, by simp [hencoded]⟩
  | refused _ _ => cases (List.cons.inj hresults).1
  | notLocated hencoded _ => exact ⟨none, rfl, rfl, by simp [hencoded]⟩
  | locatedTrapped _ _ _ => cases hresults
  | @locatedSaved _ _ imageUrl _ _ hencoded _ _ =>
    obtain rfl := (List.cons.inj hresults).1
    exact ⟨some (some imageUrl), rfl, rfl, by simp [hencoded]⟩

end Upload

/-! ## Runs -/

/-- Calls of `uploadPost`, answered in an interleaved order, all of which complete without an
error. -/
structure UploadRun (n : ℕ) where
  /-- The calls. -/
  uploads : Fin n → Upload
  /-- No key is drawn twice. -/
  fresh : Function.Injective fun i => (uploads i).autoId
  /-- The replies, each with its call. -/
  trace : List (Fin n × Event)
  /-- What each call reports. -/
  results : Fin n → List (Option NSError)
  /-- The replies answer all requests of the calls. -/
  interleaves : Interleaves (fun i => (uploads i).body.issued) trace results
  /-- Every call reports that there was no error. -/
  completes : ∀ i, results i = [none]

namespace UploadRun

variable {n : ℕ} (r : UploadRun n)

/-- The acknowledged operations, in their order. -/
def ops : List (Op String Scalar) := databaseOps (r.trace.map Prod.snd)

/-- The database after the run, which starts with an empty one. -/
def final : Database := applyAll r.ops fun _ => none

/-- The post that a call of the run has saved. -/
def savedPost (i : Fin n) : Option MediaPostModel :=
  (r.uploads i).savedPost (project i r.trace)

/-- The key and the post of a call that has saved one. -/
def savedEntry (i : Fin n) : Option (String × MediaPostModel) :=
  (r.savedPost i).map fun post => ((r.uploads i).autoId.id, post)

/-- The record of a call has been stored, and this is acknowledged. -/
def IsSaved (i : Fin n) : Prop := (project i r.trace).any Event.isSaved = true

/-- A call has saved a post when its record has been stored. -/
theorem savedPost_ne_none_iff {i : Fin n} : r.savedPost i ≠ none ↔ r.IsSaved i := by
  simp [savedPost, Upload.savedPost, IsSaved]

/-- For each call, what it has saved. -/
theorem exists_saves : ∃ saved : Fin n → Option (Option String), ∀ i,
    (r.uploads i).Saves (project i r.trace) (saved i) := by
  refine Classical.skolem.mp fun i => Upload.exists_saves_of_settles ?_
  rw [← r.completes i]
  exact r.interleaves.settles i

/-- A key is drawn by one call only. -/
theorem eq_of_autoId_eq {i j : Fin n} (h : (r.uploads i).autoId.id = (r.uploads j).autoId.id) :
    i = j := by
  refine r.fresh ?_
  change (r.uploads i).autoId = (r.uploads j).autoId
  rwa [Key.mk.injEq]

/-- No two calls have saved the same key. -/
theorem nodup_savedEntries : ((List.finRange n).filterMap r.savedEntry).Nodup := by
  refine (List.nodup_finRange n).filterMap fun i j e hi hj => ?_
  obtain ⟨_, -, rfl⟩ := Option.map_eq_some_iff.mp hi
  obtain ⟨_, -, heq⟩ := Option.map_eq_some_iff.mp hj
  exact r.eq_of_autoId_eq (congrArg Prod.fst heq).symm

/-- Each post has its own node. -/
theorem eq_of_path_eq {r : UploadRun n} {i j : Fin n}
    (h : (r.uploads i).path = (r.uploads j).path) : i = j := by
  have hid := (List.append_inj' h rfl).2
  exact r.eq_of_autoId_eq (List.cons.inj hid).1

variable {r} {saved : Fin n → Option (Option String)}
  (hsaved : ∀ i, (r.uploads i).Saves (project i r.trace) (saved i))

include hsaved

/-- The operations of a run are the writes of the saved records. -/
theorem mem_ops_iff {op : Op String Scalar} :
    op ∈ r.ops ↔ ∃ i imageUrl, saved i = some imageUrl ∧
      op = .write (r.uploads i).path fun q =>
        (Value.dict ((r.uploads i).record imageUrl)).leaf q := by
  rw [ops, mem_databaseOps_map_snd]
  refine exists_congr fun i => ?_
  rw [(hsaved i).ops]
  cases saved i <;> simp

/-- Each entry of the feed is at the node of a saved post. -/
theorem exists_saved_of_mem_feedEntries (snapshot : Snapshot r.final ["posts"])
    {user key : String} {post : MediaPostModel}
    (h : (user, key, post) ∈ feedEntries snapshot.value) :
    ∃ i imageUrl, saved i = some imageUrl ∧ pieces (r.uploads i).userId = [user] ∧
      (r.uploads i).autoId.id = key := by
  rw [mem_feedEntries_iff snapshot.nested] at h
  -- the user id of the record is a leaf that some call has written
  obtain ⟨x, hx⟩ := exists_userId_of_postAt h
  rw [snapshot.leaf_eq] at hx
  rcases exists_write_of_applyAll_eq_some hx with hx | ⟨p, v, q, hmem, hpath, hleaf⟩
  · cases hx
  · obtain ⟨i, imageUrl, hi, heq⟩ := (mem_ops_iff hsaved).mp hmem
    obtain ⟨rfl, rfl⟩ := Op.write.inj heq
    -- and a record is one level above its fields
    obtain ⟨field, rfl⟩ := Upload.exists_field_of_leaf hleaf
    have hfield : ["posts"] ++ [user] ++ [key] ++ ["userId"] =
        (r.uploads i).path ++ [field] := hpath
    obtain ⟨hnode, -⟩ := List.append_inj' hfield rfl
    obtain ⟨hfront, hid⟩ := List.append_inj' hnode rfl
    exact ⟨i, imageUrl, hi, (List.append_cancel_left hfront).symm, (List.cons.inj hid).1.symm⟩

/-- No two entries of the feed have the same key. -/
theorem nodup_keys_feedEntries (snapshot : Snapshot r.final ["posts"]) :
    ((feedEntries snapshot.value).map fun e => e.2.1).Nodup := by
  refine (nodup_feedEntries snapshot.nested).map_on ?_
  rintro ⟨user, key, post⟩ h ⟨user', key', post'⟩ h' rfl
  obtain ⟨i, -, -, huser, hkey⟩ := exists_saved_of_mem_feedEntries hsaved snapshot h
  obtain ⟨j, -, -, huser', hkey'⟩ := exists_saved_of_mem_feedEntries hsaved snapshot h'
  obtain rfl : i = j := r.eq_of_autoId_eq (hkey.trans hkey'.symm)
  obtain rfl : user = user' := (List.cons.inj (huser.symm.trans huser')).1
  -- the reader makes one post of the leaves at one node
  rw [mem_feedEntries_iff snapshot.nested] at h h'
  rw [Option.some.inj (h.symm.trans h')]

/-- If the feed delivers the saved posts, then each of them is at a node that the reader has
visited. -/
theorem keys_perm_of_perm (snapshot : Snapshot r.final ["posts"])
    (h : ((feedEntries snapshot.value).map fun e => e.2.2).Perm
      ((List.finRange n).filterMap r.savedPost)) :
    ((feedEntries snapshot.value).map fun e => e.2.1).Perm
      (((List.finRange n).filter fun i => (r.savedPost i).isSome).map fun i =>
        (r.uploads i).autoId.id) := by
  have hsubset : (feedEntries snapshot.value).map (fun e => e.2.1) ⊆
      ((List.finRange n).filter fun i => (r.savedPost i).isSome).map fun i =>
        (r.uploads i).autoId.id := by
    intro key hkey
    obtain ⟨⟨user, key, post⟩, hentry, rfl⟩ := List.mem_map.mp hkey
    obtain ⟨i, imageUrl, hi, -, hid⟩ := exists_saved_of_mem_feedEntries hsaved snapshot hentry
    refine List.mem_map.mpr ⟨i, List.mem_filter.mpr ⟨List.mem_finRange i, ?_⟩, hid⟩
    rw [savedPost, (hsaved i).post, hi]
    rfl
  -- there are as many entries as saved posts, and no two of them have the same key
  refine (List.subperm_of_subset (nodup_keys_feedEntries hsaved snapshot)
    hsubset).perm_of_length_le ?_
  have hlength := h.length_eq
  rw [List.length_map, List.length_filterMap_eq_countP, List.countP_eq_length_filter] at hlength
  rw [List.length_map, List.length_map, hlength]

/-- If the feed delivers the saved posts, then their records can be read. -/
theorem readable_of_perm (snapshot : Snapshot r.final ["posts"])
    (h : ((feedEntries snapshot.value).map fun e => e.2.2).Perm
      ((List.finRange n).filterMap r.savedPost)) {i : Fin n} (hi : r.IsSaved i) :
    (r.uploads i).Readable := by
  have hpost : r.savedPost i ≠ none := r.savedPost_ne_none_iff.mpr hi
  constructor
  · -- the feed would have to deliver a post without an image
    intro hnone
    have hsavedPost : r.savedPost i = some ((r.uploads i).post none) := by
      rw [savedPost, (hsaved i).post, (hsaved i).imageless.mpr hnone, Option.map_some]
    have hdelivered : (r.uploads i).post none ∈ (feedEntries snapshot.value).map fun e => e.2.2 :=
      h.mem_iff.mpr (List.mem_filterMap.mpr ⟨i, List.mem_finRange i, hsavedPost⟩)
    obtain ⟨⟨user, key, post⟩, hentry, heq⟩ := List.mem_map.mp hdelivered
    rw [mem_feedEntries_iff snapshot.nested] at hentry
    exact postImage_ne_none_of_postAt hentry (congrArg MediaPostModel.postImage heq)
  · -- some entry has the key of the post, and is at its node
    have hkey : (r.uploads i).autoId.id ∈ (feedEntries snapshot.value).map fun e => e.2.1 := by
      refine (keys_perm_of_perm hsaved snapshot h).mem_iff.mpr (List.mem_map.mpr ⟨i, ?_, rfl⟩)
      exact List.mem_filter.mpr ⟨List.mem_finRange i, Option.isSome_iff_ne_none.mpr hpost⟩
    obtain ⟨⟨user, key, post⟩, hentry, hid⟩ := List.mem_map.mp hkey
    obtain ⟨j, -, -, huser, hid'⟩ := exists_saved_of_mem_feedEntries hsaved snapshot hentry
    obtain rfl : j = i := r.eq_of_autoId_eq (hid'.trans hid)
    rw [huser, List.length_singleton]

variable (hchild : ∀ i, saved i ≠ none → (pieces (r.uploads i).userId).length = 1)

include hchild

/-- The operations of a run are orderly, if they are at nodes of one depth. -/
theorem orderly : Orderly r.ops where
  -- two nodes of one depth are the same or apart
  separate a ha b hb := by
    obtain ⟨i, _, hi, rfl⟩ := (mem_ops_iff hsaved).mp ha
    obtain ⟨j, _, hj, rfl⟩ := (mem_ops_iff hsaved).mp hb
    by_cases h : (r.uploads i).path = (r.uploads j).path
    · exact .inl h
    · refine .inr (apart_of_length_eq ?_ h)
      simp [Upload.path, hchild i (by simp [hi]), hchild j (by simp [hj])]
  writeOnce p v v' hv hv' := by
    obtain ⟨i, imageUrl, hi, heq⟩ := (mem_ops_iff hsaved).mp hv
    obtain ⟨j, imageUrl', hj, heq'⟩ := (mem_ops_iff hsaved).mp hv'
    obtain ⟨rfl, rfl⟩ := Op.write.inj heq
    obtain ⟨hpath, rfl⟩ := Op.write.inj heq'
    obtain rfl := eq_of_path_eq hpath
    obtain rfl : imageUrl = imageUrl' := Option.some.inj (hi.symm.trans hj)
    rfl
  -- no call removes anything
  writeFirst := by
    refine List.pairwise_of_forall_mem_list fun a ha b _ p v heq => ?_
    obtain ⟨_, _, -, rfl⟩ := (mem_ops_iff hsaved).mp ha
    cases heq

/-- The node of a saved post holds its record. -/
theorem final_apply_of_saved {i : Fin n} {imageUrl : Option String}
    (hi : saved i = some imageUrl) (q : Path) :
    r.final ((r.uploads i).path ++ q) =
      (Value.dict ((r.uploads i).record imageUrl)).leaf q := by
  refine applyAll_apply_of_write_mem (orderly hsaved hchild)
    ((mem_ops_iff hsaved).mpr ⟨i, imageUrl, hi, rfl⟩) (fun hmem => ?_) _ q
  obtain ⟨_, _, -, heq⟩ := (mem_ops_iff hsaved).mp hmem
  cases heq

/-- What the reader makes of the node of a saved post. -/
theorem postAt_of_saved (snapshot : Snapshot r.final ["posts"]) {i : Fin n}
    {imageUrl : Option String} (hi : saved i = some imageUrl) {user : String}
    (huser : pieces (r.uploads i).userId = [user]) :
    postAt (fun field => snapshot.value.leaf [user, (r.uploads i).autoId.id, field]) =
      mediaPost ((r.uploads i).record imageUrl) := by
  rw [mediaPost_eq_postAt]
  refine congrArg postAt (funext fun field => ?_)
  rw [snapshot.leaf_eq, ← final_apply_of_saved hsaved hchild hi [field], Upload.path, huser]
  rfl

/-- The entries of the feed after a run are the posts saved with an image. -/
theorem mem_feedEntries_iff_exists_saved (snapshot : Snapshot r.final ["posts"])
    (user key : String) (post : MediaPostModel) :
    (user, key, post) ∈ feedEntries snapshot.value ↔
      ∃ i imageUrl, saved i = some (some imageUrl) ∧ pieces (r.uploads i).userId = [user] ∧
        (r.uploads i).autoId.id = key ∧ (r.uploads i).post (some imageUrl) = post := by
  constructor
  · intro h
    obtain ⟨i, imageUrl, hi, huser, rfl⟩ := exists_saved_of_mem_feedEntries hsaved snapshot h
    rw [mem_feedEntries_iff snapshot.nested,
      postAt_of_saved hsaved hchild snapshot hi huser] at h
    cases imageUrl with
    | none => rw [Upload.mediaPost_record_none] at h; cases h
    | some imageUrl =>
      rw [Upload.mediaPost_record_some] at h
      exact ⟨i, imageUrl, hi, huser, rfl, Option.some.inj h⟩
  · rintro ⟨i, imageUrl, hi, huser, rfl, rfl⟩
    rw [mem_feedEntries_iff snapshot.nested, postAt_of_saved hsaved hchild snapshot hi huser,
      Upload.mediaPost_record_some]

/-- If their records can be read, the entries of the feed are the saved ones. -/
theorem mem_feedEntries_iff_mem_savedEntries (snapshot : Snapshot r.final ["posts"])
    (hencoded : ∀ i, (r.uploads i).encoded ≠ none) (key : String) (post : MediaPostModel) :
    (key, post) ∈ (feedEntries snapshot.value).map Prod.snd ↔
      (key, post) ∈ (List.finRange n).filterMap r.savedEntry := by
  rw [List.mem_map, List.mem_filterMap]
  constructor
  · rintro ⟨⟨user, key, post⟩, hentry, ⟨⟩⟩
    obtain ⟨i, imageUrl, hi, -, rfl, rfl⟩ :=
      (mem_feedEntries_iff_exists_saved hsaved hchild snapshot user key post).mp hentry
    exact ⟨i, List.mem_finRange i, by simp [savedEntry, savedPost, (hsaved i).post, hi]⟩
  · rintro ⟨i, -, hi⟩
    obtain ⟨post', hpost, heq⟩ := Option.map_eq_some_iff.mp hi
    rw [savedPost, (hsaved i).post, Option.map_eq_some_iff] at hpost
    obtain ⟨imageUrl, himage, rfl⟩ := hpost
    obtain ⟨user, huser⟩ := List.length_eq_one_iff.mp (hchild i (by simp [himage]))
    obtain ⟨rfl, rfl⟩ := Prod.mk.inj heq
    cases imageUrl with
    -- a post is saved without an image only where it cannot be encoded
    | none => exact absurd ((hsaved i).imageless.mp himage) (hencoded i)
    | some imageUrl =>
      exact ⟨(user, _, _), (mem_feedEntries_iff_exists_saved hsaved hchild snapshot _ _ _).mpr
        ⟨i, imageUrl, himage, huser, rfl, rfl⟩, rfl⟩

/-- If their records can be read, the feed delivers the saved posts. -/
theorem perm_of_readable (snapshot : Snapshot r.final ["posts"])
    (hencoded : ∀ i, (r.uploads i).encoded ≠ none) :
    ((feedEntries snapshot.value).map fun e => e.2.2).Perm
      ((List.finRange n).filterMap r.savedPost) := by
  have hnodup : ((feedEntries snapshot.value).map Prod.snd).Nodup := by
    refine List.Nodup.of_map Prod.fst ?_
    rw [List.map_map]
    exact nodup_keys_feedEntries hsaved snapshot
  -- the posts of the feed are the saved posts, with their keys
  have hentries : ((feedEntries snapshot.value).map Prod.snd).Perm
      ((List.finRange n).filterMap r.savedEntry) :=
    (List.perm_ext_iff_of_nodup hnodup r.nodup_savedEntries).mpr fun e =>
      mem_feedEntries_iff_mem_savedEntries hsaved hchild snapshot hencoded e.1 e.2
  have hposts := hentries.map Prod.snd
  rw [List.map_map, List.map_filterMap] at hposts
  refine hposts.trans (List.Perm.of_eq ?_)
  simp [savedEntry, Function.comp_def]

end UploadRun

/-- A read of the feed delivers exactly the saved posts of the run, each once. -/
def DeliversSavedPosts {n : ℕ} (r : UploadRun n) (snapshot : Snapshot r.final ["posts"]) :
    Prop :=
  ∃ posts,
    Settles (fetchUserPosts fun posts error => .complete (posts, error) .done).issued
      [⟨.observeSingleEvent ["posts"], .value snapshot.value⟩] [(posts, none)] ∧
    posts.Perm ((List.finRange n).filterMap r.savedPost)

/-- A read of the feed delivers what the loops of the reader collect. -/
theorem settles_fetchUserPosts_iff (snapshot : Value) (posts : List MediaPostModel) :
    Settles (fetchUserPosts fun posts error => .complete (posts, error) .done).issued
        [⟨.observeSingleEvent ["posts"], .value snapshot⟩] [(posts, none)] ↔
      posts = fetchUserPostsLoop snapshot := by
  rw [fetchUserPosts, Prog.issued_issue, Prog.issued_done]
  refine (settles_reply_iff ?_).trans ?_
  · rfl
  · simp

/-- The feed delivers exactly the saved posts if and only if every saved post was given an image
that can be encoded and a user id that is one component of a path. -/
theorem deliversSavedPosts_iff_forall_readable {n : ℕ} (r : UploadRun n)
    (snapshot : Snapshot r.final ["posts"]) :
    DeliversSavedPosts r snapshot ↔ ∀ i, r.IsSaved i → (r.uploads i).Readable := by
  obtain ⟨saved, hsaved⟩ := r.exists_saves
  have hisSaved {i : Fin n} : r.IsSaved i ↔ saved i ≠ none := by
    rw [← r.savedPost_ne_none_iff, UploadRun.savedPost, (hsaved i).post, ne_eq,
      Option.map_eq_none_iff]
  constructor
  · rintro ⟨posts, hread, hperm⟩ i hi
    rw [settles_fetchUserPosts_iff, fetchUserPostsLoop_eq] at hread
    rw [hread] at hperm
    exact UploadRun.readable_of_perm hsaved snapshot hperm hi
  · intro hall
    refine ⟨_, (settles_fetchUserPosts_iff _ _).mpr rfl, ?_⟩
    rw [fetchUserPostsLoop_eq]
    refine UploadRun.perm_of_readable hsaved (fun i hi => ?_) snapshot fun i hnone => ?_
    · exact (hall i (hisSaved.mpr hi)).2
    · -- a call without an encoded image has saved a record
      have himageless : saved i = some none := (hsaved i).imageless.mpr hnone
      exact (hall i (hisSaved.mpr (by simp [himageless]))).1 hnone

/-- A post without a picked image, which is passed as an empty image. -/
def imagelessUpload : Upload where
  uuidString := "file"
  autoId := ⟨"p", by decide⟩
  userId := "u"
  userName := "name"
  userEmail := "email"
  profile := "profile"
  imageUrl := some ⟨none⟩
  content := "hello"

/-- The run of this post. -/
def imagelessRun : UploadRun 1 where
  uploads _ := imagelessUpload
  fresh i j _ := Subsingleton.elim i j
  trace := [(0, ⟨imagelessUpload.request none, none⟩)]
  results _ := [none]
  interleaves := by
    have h : ∃ results, Interleaves (fun _ : Fin 1 => imagelessUpload.body.issued)
        [(0, ⟨imagelessUpload.request none, none⟩)] results ∧ results = fun _ => [none] := by
      refine ⟨_, .reply_first _ (by exact rfl) (.nil ?_), ?_⟩
      · exact fun i => by rw [Subsingleton.elim i 0]; rfl
      · exact funext fun i => by rw [Subsingleton.elim i 0]; rfl
    obtain ⟨_, h, rfl⟩ := h
    exact h
  completes _ := rfl

/-- What a read of the feed gives after it. -/
def imagelessSnapshot : Snapshot imagelessRun.final ["posts"] where
  value := .dict [("u", .dict [("p", .dict (imagelessUpload.record none))])]
  nested := by
    have hrecord : (Value.dict (imagelessUpload.record none)).Nested :=
      .dict (by decide) (by simp [Upload.record, postValues, Value.Nested.scalar])
    have huser : (Value.dict [("p", .dict (imagelessUpload.record none))]).Nested :=
      .dict (by decide) (by simpa using hrecord)
    exact .dict (by decide) (by simpa using huser)
  leaf_eq q := by
    have hfinal : imagelessRun.final = (Op.write ["posts", "u", "p"] fun q =>
        (Value.dict (imagelessUpload.record none)).leaf q).apply fun _ => none := rfl
    rw [hfinal]
    -- the record stands below the user and the key, and there is nothing elsewhere
    match q with
    | [] => rfl
    | [user] => by_cases h : "u" = user <;>
        simp [Value.leaf_dict_singleton, Op.apply, h]
    | user :: key :: q =>
      by_cases h : "u" = user <;> by_cases h' : "p" = key <;>
        simp [Value.leaf_dict_singleton, Op.apply, h, h']

/-- The post is saved without an error and does not appear in the feed. -/
theorem not_deliversSavedPosts_imagelessRun :
    ¬DeliversSavedPosts imagelessRun imagelessSnapshot := by
  rintro ⟨posts, hread, hperm⟩
  rw [settles_fetchUserPosts_iff] at hread
  have hlength := hperm.length_eq
  rw [hread] at hlength
  revert hlength
  decide

end LearnCode
