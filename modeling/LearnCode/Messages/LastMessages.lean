import LearnCode.Messages.ThreadRead

/-!
# The last messages of the threads

`fetchLastMessages` adds an entry for each thread that has a dictionary of messages, with the
sorted records of the thread. As the keys of the threads are distinct, no two threads share an
entry.

## Main definitions

* `DeliversThreads`: the entries of a list are the threads of a snapshot.

## Main results

* `fetchLastMessagesLoop_eq`: the entries that the loop makes, one for each thread;
* `mem_fetchLastMessagesLoop_iff`: the entry of a thread;
* `deliversThreads_fetchLastMessagesLoop`: the loop delivers the threads.
-/

namespace LearnCode.MessageManager

open Callback

/-- The list has one entry for each thread with a dictionary of messages, under the key of the
thread and with the messages of its records, each once, in the order of the timestamps. -/
structure DeliversThreads (conversations : List (String × Value))
    (lastMessages : List SenderMessages) : Prop where
  nodup : (lastMessages.map SenderMessages.senderReceiverId).Nodup
  mem_iff : ∀ key, key ∈ lastMessages.map SenderMessages.senderReceiverId ↔
    ∃ thread messages, (key, .dict thread) ∈ conversations ∧
      thread.lookup "messages" = some (.dict messages)
  holds : ∀ t ∈ lastMessages, ∀ conversationData,
    (t.senderReceiverId, conversationData) ∈ conversations →
      HoldsRecords t.messages (storedEntries conversationData)
  sorted : ∀ t ∈ lastMessages, t.messages.Pairwise (fun a b => a.timestamp ≤ b.timestamp)

/-- A thread has a dictionary of messages when the code reads one. -/
theorem messagesData_ne_none_iff (conversationData : Value) :
    messagesData conversationData ≠ none ↔ ∃ thread messages,
      conversationData = .dict thread ∧ thread.lookup "messages" = some (.dict messages) := by
  constructor
  · intro h
    obtain ⟨data, hdata⟩ := Option.ne_none_iff_exists'.mp h
    obtain ⟨thread, hthread, hmessages⟩ := Option.bind_eq_some_iff.mp hdata
    obtain ⟨messages, hlookup, hdict⟩ := Option.bind_eq_some_iff.mp hmessages
    obtain rfl := Value.eq_dict_of_asDictionary hdict
    exact ⟨thread, data, Value.eq_dict_of_asDictionary hthread, hlookup⟩
  · rintro ⟨thread, messages, rfl, hlookup⟩
    simp [hlookup, Value.asDictionary]

/-! ## The loop -/

/-- The inner loop collects the records of the thread. -/
theorem threadMessages_eq {conversationData : Value} {data : List (String × Value)}
    (h : messagesData conversationData = some data) :
    threadMessages data = storedRecords conversationData := by
  calc threadMessages data
      = data.foldl (fun messages entry =>
          messages ++ (entry.2.asDictionary.map (messageModel entry.1)).toList) [] := by
        rw [threadMessages]
        congr 1
        funext messages entry
        cases entry.2.asDictionary <;> simp
    _ = storedRecords conversationData := by
        -- a loop that appends is a `flatMap`
        rw [AssocList.foldl_append_eq_flatMap, storedRecords, h]
        rfl

/-- The entry of a thread, if it has a dictionary of messages. -/
def threadEntry (conversation : String × Value) : Option SenderMessages :=
  (messagesData conversation.2).map fun _ =>
    ⟨conversation.1, sortByTimestamp (storedRecords conversation.2)⟩

/-- The entry of a thread has its key. -/
theorem senderReceiverId_of_threadEntry {conversation : String × Value} {t : SenderMessages}
    (h : threadEntry conversation = some t) : t.senderReceiverId = conversation.1 := by
  obtain ⟨_, -, rfl⟩ := Option.map_eq_some_iff.mp h
  rfl

/-- A thread whose key has no entry gets an entry at the end. -/
theorem appendThread_of_notMem {senderMessages : List SenderMessages} {key : String}
    (h : key ∉ senderMessages.map SenderMessages.senderReceiverId)
    (sortedMessages : List MessageModel) :
    appendThread senderMessages key sortedMessages = senderMessages ++ [⟨key, sortedMessages⟩] := by
  have hnone : senderMessages.findIdx? (fun m => m.senderReceiverId == key) = none := by
    rw [List.findIdx?_eq_none_iff]
    intro m hm
    simpa using fun heq : m.senderReceiverId = key => h (heq ▸ List.mem_map_of_mem hm)
  rw [appendThread, hnone]

/-- Threads with distinct keys, none of which has an entry, get one entry each. -/
theorem foldl_appendThread_eq {conversations : List (String × Value)}
    (h : (conversations.map Prod.fst).Nodup) {senderMessages : List SenderMessages}
    (hfresh : ∀ key ∈ conversations.map Prod.fst,
      key ∉ senderMessages.map SenderMessages.senderReceiverId) :
    conversations.foldl (fun senderMessages conversation =>
        (threadEntry conversation).elim senderMessages fun t =>
          appendThread senderMessages t.senderReceiverId t.messages) senderMessages =
      senderMessages ++ conversations.filterMap threadEntry := by
  induction conversations generalizing senderMessages with
  | nil => simp
  | cons conversation conversations ih =>
    rw [List.map_cons, List.nodup_cons] at h
    rw [List.map_cons, List.forall_mem_cons] at hfresh
    rw [List.foldl_cons]
    cases hentry : threadEntry conversation with
    | none =>
      -- a thread without a dictionary of messages adds nothing
      rw [List.filterMap_cons_none hentry]
      exact ih h.2 hfresh.2
    | some t =>
      have hkey : t.senderReceiverId = conversation.1 := senderReceiverId_of_threadEntry hentry
      rw [List.filterMap_cons_some hentry, Option.elim_some,
        appendThread_of_notMem (hkey ▸ hfresh.1), List.append_cons senderMessages t
          (conversations.filterMap threadEntry)]
      refine ih h.2 fun key hmem => ?_
      -- the new entry has the key of this thread, which no later thread has
      rw [List.map_append, List.mem_append, not_or]
      refine ⟨hfresh.2 key hmem, ?_⟩
      have hne : key ≠ t.senderReceiverId := fun heq => h.1 (hkey ▸ heq ▸ hmem)
      simpa using hne

/-- The loop adds one entry for each thread, as the keys are distinct. -/
theorem fetchLastMessagesLoop_eq {conversations : List (String × Value)}
    (h : (conversations.map Prod.fst).Nodup) :
    fetchLastMessagesLoop conversations = conversations.filterMap threadEntry := by
  calc fetchLastMessagesLoop conversations
      = conversations.foldl (fun senderMessages conversation =>
          (threadEntry conversation).elim senderMessages fun t =>
            appendThread senderMessages t.senderReceiverId t.messages) [] := by
        rw [fetchLastMessagesLoop]
        congr 1
        funext senderMessages conversation
        cases hdata : messagesData conversation.2 with
        | none => simp [threadEntry, hdata]
        | some data => simp [threadEntry, hdata, threadMessages_eq hdata]
    _ = conversations.filterMap threadEntry := by
        simpa using @foldl_appendThread_eq conversations h [] (by simp)

/-- An entry that the loop makes is that of a thread with a dictionary of messages. -/
theorem mem_fetchLastMessagesLoop_iff {conversations : List (String × Value)}
    (h : (conversations.map Prod.fst).Nodup) (t : SenderMessages) :
    t ∈ fetchLastMessagesLoop conversations ↔ ∃ conversationData,
      (t.senderReceiverId, conversationData) ∈ conversations ∧
        messagesData conversationData ≠ none ∧
        t.messages = sortByTimestamp (storedRecords conversationData) := by
  rw [fetchLastMessagesLoop_eq h, List.mem_filterMap]
  constructor
  · rintro ⟨conversation, hmem, hentry⟩
    obtain ⟨data, hdata, rfl⟩ := Option.map_eq_some_iff.mp hentry
    exact ⟨conversation.2, hmem, by simp [hdata], rfl⟩
  · rintro ⟨conversationData, hmem, hdata, hmessages⟩
    obtain ⟨data, hdata⟩ := Option.ne_none_iff_exists'.mp hdata
    refine ⟨_, hmem, ?_⟩
    rw [threadEntry, hdata, Option.map_some, ← hmessages]

/-- The entries that the loop makes are the threads. -/
theorem deliversThreads_fetchLastMessagesLoop {conversations : List (String × Value)}
    (h : (conversations.map Prod.fst).Nodup) :
    DeliversThreads conversations (fetchLastMessagesLoop conversations) := by
  constructor
  case nodup =>
    rw [fetchLastMessagesLoop_eq h, List.Nodup, List.pairwise_map, List.pairwise_filterMap]
    -- entries have the keys of their threads, which are distinct
    refine (List.pairwise_map.mp h).imp ?_
    intro conversation conversation' hne t ht t' ht'
    rwa [senderReceiverId_of_threadEntry ht, senderReceiverId_of_threadEntry ht']
  case mem_iff =>
    intro key
    rw [List.mem_map]
    constructor
    · rintro ⟨t, ht, rfl⟩
      obtain ⟨conversationData, hmem, hdata, -⟩ := (mem_fetchLastMessagesLoop_iff h t).mp ht
      obtain ⟨thread, messages, rfl, hlookup⟩ := (messagesData_ne_none_iff _).mp hdata
      exact ⟨thread, messages, hmem, hlookup⟩
    · rintro ⟨thread, messages, hmem, hlookup⟩
      have hdata := (messagesData_ne_none_iff _).mpr ⟨thread, messages, rfl, hlookup⟩
      exact ⟨⟨key, _⟩, (mem_fetchLastMessagesLoop_iff h _).mpr ⟨_, hmem, hdata, rfl⟩, rfl⟩
  case holds =>
    intro t ht conversationData hmem
    obtain ⟨conversationData', hmem', -, hmessages⟩ := (mem_fetchLastMessagesLoop_iff h t).mp ht
    -- a key has one value
    have hlookup := (AssocList.lookup_eq_some_iff_mem h).mpr hmem
    rw [(AssocList.lookup_eq_some_iff_mem h).mpr hmem'] at hlookup
    rw [hmessages, Option.some.inj hlookup]
    exact (holdsRecords_iff_perm _ _).mpr (sortByTimestamp_perm _)
  case sorted =>
    intro t ht
    obtain ⟨_, -, -, hmessages⟩ := (mem_fetchLastMessagesLoop_iff h t).mp ht
    rw [hmessages]
    exact sortByTimestamp_pairwise _

end LearnCode.MessageManager
