import LearnCode.APIManager.MessageManager

/-!
# Reading one thread

`getAllConversations` reads the node of all conversations and keeps the records of every
thread whose key contains the key of the pair. It delivers the thread of the pair alone
exactly when no other thread with readable records has such a key.

## Main definitions

* `ConversationsNode`: the content of the node `conversations`;
* `storedEntries`: the records of a thread, as they are stored;
* `IsStored` and `HoldsRecords`: a message has the id and the fields of a record, or the defaults,
  and a list of messages is that of the records, each once;
* `storedRecords` and `ConversationsNode.threadRecords`: the messages that the code reads in a
  thread;
* `loadedMessages`: the list `getAllConversations` computes from a snapshot;
* `ReadsThreadOnly`: a read delivers the records of the thread of the pair, sorted.

## Main results

* `isStored_iff` and `holdsRecords_iff_perm`: the code reads the records as they are stored;
* `settles_getAllConversations_iff`: what a read of the node delivers;
* `loadedMessages_perm`: the messages of the pair's thread, and those of all other threads
  whose keys contain its key;
* `loadedMessages_perm_of_reordered`: the order in which the dictionaries are enumerated
  changes only the order of the list;
* `readsThreadOnly_iff_no_containing_thread`: when a read is confined to its thread.
-/

namespace LearnCode.MessageManager

open Callback

/-- The content of the node `conversations`: the threads by their keys, as nested
dictionaries. -/
structure ConversationsNode where
  /-- The threads, in the order in which the dictionary is enumerated. -/
  threads : List (String × Value)
  /-- The keys on each level are distinct. -/
  nested : (Value.dict threads).Nested

namespace ConversationsNode

/-- `snapshot.value`: a node without children does not exist. -/
def value (node : ConversationsNode) : Value :=
  match node.threads with
  | [] => .null
  | _ :: _ => .dict node.threads

/-- The keys of the threads are distinct. -/
theorem nodup_keys (node : ConversationsNode) : (node.threads.map Prod.fst).Nodup := by
  cases node.nested with
  | dict hnodup _ => exact hnodup

/-- The same node, with its dictionaries enumerated in another order. -/
def Reordered (node node' : ConversationsNode) : Prop :=
  Value.Reordered (.dict node.threads) (.dict node'.threads)

/-- A node is enumerated in its own order. -/
theorem Reordered.refl (node : ConversationsNode) : node.Reordered node :=
  node.nested.reordered

/-- A node without threads. -/
def empty : ConversationsNode := ⟨[], .dict (by simp) (by simp)⟩

/-- A node with one thread, whose messages have distinct keys. -/
theorem nested_oneThread (key : String) {data : List (String × Value)}
    (h : (Value.dict data).Nested) :
    (Value.dict [(key, .dict [("messages", .dict data)])]).Nested := by
  have hthread : (Value.dict [("messages", .dict data)]).Nested :=
    .dict (by simp) (by simpa using h)
  exact .dict (by simp) (by simpa using hthread)

/-- A node with one message in one thread. -/
def single (key messageID : String) (message : MessageModel) : ConversationsNode where
  threads := [(key, .dict [("messages", .dict [(messageID, messageData message)])])]
  nested := by
    have hmessage : (messageData message).Nested :=
      .dict (by simp) (by simp [Value.Nested.scalar])
    have hmessages : (Value.dict [(messageID, messageData message)]).Nested :=
      .dict (by simp) (by simpa using hmessage)
    exact nested_oneThread key hmessages

end ConversationsNode

/-! ## Records as they are stored -/

/-- The value of a string field of a record: the string under the key, or the empty string if there
is none. -/
inductive StringField (record : List (String × Value)) (key : String) : String → Prop
  | stored {s : String} : record.lookup key = some (.string s) → StringField record key s
  | absent : (∀ s, record.lookup key ≠ some (.string s)) → StringField record key ""

/-- The value of a time field of a record: the number under the key, if it is one that a double
holds exactly, one or zero for a boolean, and zero otherwise. -/
inductive TimeField (record : List (String × Value)) (key : String) : TimeInterval → Prop
  | double {q : ℚ} : record.lookup key = some (.double q) → TimeField record key q
  | int {n : ℤ} : record.lookup key = some (.scalar (.int n)) → exactlyDouble n = true →
      TimeField record key n
  | bool {b : Bool} : record.lookup key = some (.scalar (.bool b)) →
      TimeField record key (if b then 1 else 0)
  | absent : (∀ q, record.lookup key ≠ some (.double q)) →
      (∀ n, exactlyDouble n = true → record.lookup key ≠ some (.scalar (.int n))) →
      (∀ b, record.lookup key ≠ some (.scalar (.bool b))) → TimeField record key 0

/-- A message has the id of a record and its fields, with the default of each absent one. -/
structure IsStored (message : MessageModel) (entry : String × List (String × Value)) : Prop where
  messageID : message.messageID = entry.1
  senderId : StringField entry.2 "senderId" message.senderId
  receiverId : StringField entry.2 "receiverId" message.receiverId
  content : StringField entry.2 "content" message.content
  timestamp : TimeField entry.2 "timestamp" message.timestamp

/-- The records of a thread by their ids: the dictionaries that are stored under `messages`. -/
def storedEntries : Value → List (String × List (String × Value))
  | .dict thread =>
    match thread.lookup "messages" with
    | some (.dict messages) => messages.flatMap fun entry =>
      match entry.2 with
      | .dict record => [(entry.1, record)]
      | _ => []
    | _ => []
  | _ => []

/-- The messages of a list are those of the records, each once, in any order. -/
def HoldsRecords (messages : List MessageModel)
    (entries : List (String × List (String × Value))) : Prop :=
  ∃ records, records.Perm entries ∧ List.Forall₂ IsStored messages records

/-- The records of the thread with a given key. -/
def ConversationsNode.threadEntries (node : ConversationsNode) (key : String) :
    List (String × List (String × Value)) :=
  (node.threads.lookup key).elim [] storedEntries

/-- The code reads a string field as it is stored. -/
theorem stringField_iff (record : List (String × Value)) (key s : String) :
    StringField record key s ↔ s = ((record.lookup key).bind Value.asString).getD "" := by
  constructor
  · rintro (h | h)
    · simp [h, Value.asString]
    · -- any other value is read as the default
      cases hvalue : record.lookup key with
      | none => rfl
      | some v =>
        cases v with
        | scalar scalar =>
          cases scalar with
          | string s => exact absurd hvalue (h s)
          | _ => rfl
        | _ => rfl
  · rintro rfl
    cases hvalue : (record.lookup key).bind Value.asString with
    | none => exact .absent fun s hs => by simp [hs, Value.asString] at hvalue
    | some s =>
      obtain ⟨v, hv, hstring⟩ := Option.bind_eq_some_iff.mp hvalue
      obtain rfl := Value.eq_string_of_asString hstring
      exact .stored hv

/-- The code reads a time field as it is stored. -/
theorem timeField_iff (record : List (String × Value)) (key : String) (q : TimeInterval) :
    TimeField record key q ↔
      q = ((record.lookup key).bind Value.asTimeInterval).getD 0 := by
  constructor
  · rintro (h | ⟨h, hexact⟩ | h | ⟨hdouble, hint, hbool⟩)
    · simp [h, Value.asTimeInterval]
    · simp [h, hexact, Value.asTimeInterval]
    · simp [h, Value.asTimeInterval]
    · cases hvalue : record.lookup key with
      | none => rfl
      | some v =>
        cases v with
        | scalar scalar =>
          cases scalar with
          | string s => rfl
          | double q => exact absurd hvalue (hdouble q)
          | bool b => exact absurd hvalue (hbool b)
          | int n =>
            have hinexact : exactlyDouble n ≠ true := fun hexact => hint n hexact hvalue
            simp [Value.asTimeInterval, hinexact]
        | _ => rfl
  · rintro rfl
    cases hvalue : record.lookup key with
    | none => exact .absent (by simp [hvalue]) (by simp [hvalue]) (by simp [hvalue])
    | some v =>
      cases v with
      | scalar scalar =>
        cases scalar with
        | double q => exact .double hvalue
        | bool b => exact .bool hvalue
        | int n =>
          cases hexact : exactlyDouble n with
          | true => simpa [Value.asTimeInterval, hexact] using TimeField.int hvalue hexact
          | false =>
            -- an integer that is no double is read as the default
            simp only [Option.bind_some, Value.asTimeInterval, hexact]
            refine .absent (by simp [hvalue]) (fun m hm hvalue' => ?_) (by simp [hvalue])
            obtain rfl : n = m := by simpa [hvalue] using hvalue'
            rw [hexact] at hm
            cases hm
        | string s => exact .absent (by simp [hvalue]) (by simp [hvalue]) (by simp [hvalue])
      | _ => exact .absent (by simp [hvalue]) (by simp [hvalue]) (by simp [hvalue])

/-- The code reads a record as it is stored. -/
theorem isStored_iff (message : MessageModel) (entry : String × List (String × Value)) :
    IsStored message entry ↔ message = messageModel entry.1 entry.2 := by
  constructor
  · rintro ⟨hid, hsender, hreceiver, hcontent, htime⟩
    obtain ⟨messageID, senderId, receiverId, content, timestamp⟩ := message
    simp only [stringField_iff, timeField_iff] at hid hsender hreceiver hcontent htime
    simp only [messageModel, hid, hsender, hreceiver, hcontent, htime]
  · rintro rfl
    exact ⟨rfl, (stringField_iff ..).mpr rfl, (stringField_iff ..).mpr rfl,
      (stringField_iff ..).mpr rfl, (timeField_iff ..).mpr rfl⟩

/-! ## Records as they are read -/

/-- The messages stored in a thread: the records under `messages` that are dictionaries. -/
def storedRecords (conversationData : Value) : List MessageModel :=
  ((messagesData conversationData).getD []).flatMap fun entry =>
    (entry.2.asDictionary.map (messageModel entry.1)).toList

/-- The messages stored in the thread with a given key. -/
def ConversationsNode.threadRecords (node : ConversationsNode) (key : String) :
    List MessageModel :=
  (node.threads.lookup key).elim [] storedRecords

/-- The code reads the records of a thread as they are stored. -/
theorem storedRecords_eq_map (conversationData : Value) :
    storedRecords conversationData =
      (storedEntries conversationData).map fun entry => messageModel entry.1 entry.2 := by
  cases conversationData with
  | dict thread =>
    simp only [storedRecords, storedEntries, messagesData, Value.asDictionary, Option.bind_some]
    cases hmessages : thread.lookup "messages" with
    | none => rfl
    | some messages =>
      cases messages with
      | dict messages =>
        simp only [Option.bind_some, Value.asDictionary, Option.getD_some, List.map_flatMap]
        congr 1
        funext entry
        obtain ⟨messageID, record⟩ := entry
        -- a value that is no dictionary is passed over by both
        cases record <;> rfl
      | _ => rfl
  | _ => rfl

/-- A list of messages is that of the records of a thread when it has what the code reads. -/
theorem holdsRecords_iff_perm (messages : List MessageModel) (conversationData : Value) :
    HoldsRecords messages (storedEntries conversationData) ↔
      messages.Perm (storedRecords conversationData) := by
  constructor
  · rintro ⟨records, hperm, hrecords⟩
    have hmessages : messages = records.map fun entry => messageModel entry.1 entry.2 := by
      rw [← List.forall₂_eq_eq_eq, List.forall₂_map_right_iff]
      exact hrecords.imp fun message entry => (isStored_iff message entry).mp
    rw [hmessages, storedRecords_eq_map]
    exact hperm.map _
  · intro hperm
    have hstored : List.Forall₂ IsStored (storedRecords conversationData)
        (storedEntries conversationData) := by
      rw [storedRecords_eq_map, List.forall₂_map_left_iff, List.forall₂_same]
      exact fun entry _ => (isStored_iff _ entry).mpr rfl
    -- the records are put in the order of the messages
    obtain ⟨records, hrecords, hentries⟩ := List.perm_comp_forall₂ hperm hstored
    exact ⟨records, hentries, hrecords⟩

/-- A thread has records when the code reads some. -/
theorem storedRecords_eq_nil_iff (conversationData : Value) :
    storedRecords conversationData = [] ↔ storedEntries conversationData = [] := by
  rw [storedRecords_eq_map, List.map_eq_nil_iff]

/-- A list of messages is that of the records of the thread with a given key when it has what the
code reads. -/
theorem ConversationsNode.holdsRecords_iff_perm (node : ConversationsNode) (key : String)
    (messages : List MessageModel) :
    HoldsRecords messages (node.threadEntries key) ↔ messages.Perm (node.threadRecords key) := by
  rw [threadEntries, threadRecords]
  cases node.threads.lookup key with
  | none => exact MessageManager.holdsRecords_iff_perm messages .null
  | some conversationData => exact MessageManager.holdsRecords_iff_perm messages conversationData

/-- The list that `getAllConversations` computes from the node. -/
def loadedMessages (conversationPath : String) (node : ConversationsNode) :
    List MessageModel :=
  sortByTimestamp (collectMessages conversationPath node.threads [])

/-! ## What the loops collect -/

/-- The inner loop appends the records of a thread that is kept. -/
private theorem foldl_messages_eq (keep : Bool) (data : List (String × Value))
    (messages : List MessageModel) :
    data.foldl (fun messages entry =>
        match entry.2.asDictionary with
        | none => messages
        | some message =>
          if keep then messages ++ [messageModel entry.1 message] else messages) messages =
      messages ++ if keep then
        data.flatMap fun entry => (entry.2.asDictionary.map (messageModel entry.1)).toList
      else [] := by
  induction data generalizing messages with
  | nil => simp
  | cons entry data ih =>
    rw [List.foldl_cons, ih]
    cases h : entry.2.asDictionary <;> cases keep <;> simp [h]

/-- The nested loops append the messages of every thread whose key contains the path. -/
theorem collectMessages_eq (conversationPath : String) (conversations : List (String × Value))
    (messages : List MessageModel) :
    collectMessages conversationPath conversations messages =
      messages ++ conversations.flatMap fun conversation =>
        if contains conversation.1 conversationPath then storedRecords conversation.2 else [] := by
  rw [← AssocList.foldl_append_eq_flatMap, collectMessages]
  congr 1
  funext messages conversation
  simp only [storedRecords]
  cases messagesData conversation.2 with
  | none => simp
  | some data => exact foldl_messages_eq (contains conversation.1 conversationPath) data messages

/-- The list computed from a node is in the order of the timestamps. -/
theorem loadedMessages_pairwise (key : String) (node : ConversationsNode) :
    (loadedMessages key node).Pairwise (fun a b => a.timestamp ≤ b.timestamp) :=
  sortByTimestamp_pairwise _

/-- A record is read the same in any order of its fields. -/
theorem messageModel_eq_of_reordered (messageID : String)
    {message message' : List (String × Value)}
    (h : Value.Reordered (.dict message) (.dict message')) :
    messageModel messageID message = messageModel messageID message' := by
  have hstring : ∀ key, (message.lookup key).bind Value.asString =
      (message'.lookup key).bind Value.asString := fun key =>
    h.lookup_bind_eq key fun _ _ hv => hv.asString_eq
  have htime : ∀ key, (message.lookup key).bind Value.asTimeInterval =
      (message'.lookup key).bind Value.asTimeInterval := fun key =>
    h.lookup_bind_eq key fun _ _ hv => hv.asTimeInterval_eq
  simp only [messageModel, hstring, htime]

@[simp] theorem messagesData_dict (entries : List (String × Value)) :
    messagesData (.dict entries) = (entries.lookup "messages").bind Value.asDictionary := rfl

/-- Of two orders of one thread both have a dictionary of messages, or neither has. -/
theorem messagesData_cases_of_reordered {v v' : Value} (h : Value.Reordered v v') :
    (messagesData v = none ∧ messagesData v' = none) ∨
      ∃ data data', messagesData v = some data ∧ messagesData v' = some data' ∧
        Value.Reordered (.dict data) (.dict data') := by
  rcases h.asDictionary_cases with ⟨hnone, hnone'⟩ | ⟨entries, entries', rfl, rfl⟩
  · simp [messagesData, hnone, hnone']
  · rcases h.lookup_cases "messages" with ⟨hnone, hnone'⟩ | ⟨w, w', hw, hw', hr⟩
    · simp [hnone, hnone']
    · rcases hr.asDictionary_cases with ⟨hnone, hnone'⟩ | ⟨data, data', rfl, rfl⟩
      · simp [hw, hw', hnone, hnone']
      · exact .inr ⟨data, data', by simp [hw, Value.asDictionary],
          by simp [hw', Value.asDictionary], hr⟩

/-- The messages of a thread have distinct keys. -/
theorem nested_of_messagesData {v : Value} (h : v.Nested) {data : List (String × Value)}
    (hdata : messagesData v = some data) : (Value.dict data).Nested := by
  obtain ⟨entries, hentries, hmessages⟩ := Option.bind_eq_some_iff.mp hdata
  obtain ⟨w, hw, hdict⟩ := Option.bind_eq_some_iff.mp hmessages
  obtain rfl := Value.eq_dict_of_asDictionary hentries
  obtain rfl := Value.eq_dict_of_asDictionary hdict
  exact h.of_mem_children ((AssocList.lookup_eq_some_iff_mem h.nodup_keys).mp hw)

/-- The records of a thread do not depend on the order of enumeration, up to their order. -/
theorem storedRecords_perm_of_reordered {v v' : Value} (hnested : v.Nested)
    (h : Value.Reordered v v') : (storedRecords v).Perm (storedRecords v') := by
  rcases messagesData_cases_of_reordered h with ⟨hnone, hnone'⟩ | ⟨data, data', hdata, hdata', hr⟩
  · simp [storedRecords, hnone, hnone']
  · have hnodup : (data.map Prod.fst).Nodup := (nested_of_messagesData hnested hdata).nodup_keys
    rw [storedRecords, storedRecords, hdata, hdata', Option.getD_some, Option.getD_some]
    cases hr with
    | dict hkeys hrecords =>
      refine AssocList.flatMap_perm_of_lookup hnodup hkeys _ fun k u u' hu hu' => ?_
      have hrecord := hrecords k u u' hu hu'
      -- a record is read the same in both orders
      rcases hrecord.asDictionary_cases with ⟨hnone, hnone'⟩ | ⟨fields, fields', rfl, rfl⟩
      · simp [hnone, hnone']
      · simp [Value.asDictionary, messageModel_eq_of_reordered k hrecord]

/-- The messages that the loops collect do not depend on the order of enumeration, up to their
order. -/
theorem collectMessages_perm_of_reordered (key : String)
    {conversations conversations' : List (String × Value)}
    (hnested : (Value.dict conversations).Nested)
    (h : Value.Reordered (.dict conversations) (.dict conversations')) :
    (collectMessages key conversations []).Perm (collectMessages key conversations' []) := by
  have hnodup : (conversations.map Prod.fst).Nodup := hnested.nodup_keys
  simp only [collectMessages_eq, List.nil_append]
  cases h with
  | dict hkeys hvalues =>
    refine AssocList.flatMap_perm_of_lookup hnodup hkeys _ fun k v v' hv hv' => ?_
    split_ifs
    · refine storedRecords_perm_of_reordered ?_ (hvalues k v v' hv hv')
      exact hnested.of_mem_children ((AssocList.lookup_eq_some_iff_mem hnodup).mp hv)
    · rfl

/-- The order in which the dictionaries are enumerated changes only the order of the list. -/
theorem loadedMessages_perm_of_reordered (key : String) {node node' : ConversationsNode}
    (h : node.Reordered node') : (loadedMessages key node).Perm (loadedMessages key node') := by
  rw [loadedMessages, loadedMessages]
  refine (sortByTimestamp_perm _).trans (.trans ?_ (sortByTimestamp_perm _).symm)
  exact collectMessages_perm_of_reordered key node.nested h

/-! ## What a read delivers -/

/-- What a read of a snapshot delivers. -/
theorem settles_getAllConversationsOnValue_iff (user : AuthUser) (receiverId : String)
    (snapshot : Value) (delivered : List (List MessageModel)) :
    Settles (getAllConversations (some user) receiverId fun messages =>
        .complete messages .done).issued
      [⟨.observeSingleEvent ["conversations"], .value snapshot⟩] delivered ↔
    delivered = (getAllConversationsOnValue (threadKey user.uid receiverId) snapshot fun messages =>
      .complete messages .done : Prog (List MessageModel)).completed := by
  have hissued : (getAllConversationsOnValue (threadKey user.uid receiverId) snapshot
      fun messages => .complete messages .done : Prog (List MessageModel)).issued = [] := by
    unfold getAllConversationsOnValue
    split_ifs
    · cases snapshot.asDictionary <;> rfl
    · rfl
  rw [getAllConversations, Prog.issued_issue, Prog.issued_done]
  exact settles_reply_iff hissued

/-- The closure of `getAllConversations` delivers the list computed from the node. -/
theorem getAllConversationsOnValue_eq {ρ : Type} (conversationPath : String)
    (node : ConversationsNode) (completion : List MessageModel → Prog ρ) :
    getAllConversationsOnValue conversationPath node.value completion =
      completion (loadedMessages conversationPath node) := by
  obtain ⟨threads, nested⟩ := node
  cases threads with
  | nil => rfl
  | cons thread threads => rfl

end LearnCode.MessageManager
