import LearnCode.Messages.LastMessages
import LearnCode.View.Cells

/-!
# Previews of the chat list

`fetchLastMessages` delivers the sorted messages of each thread, and a row of the chat list shows
the last one of the thread that the current user has with the user of the row. The threads are
delivered each once, with all their records, and the row shows a latest record of its thread.

## Main definitions

* `ShowsLatest`: each row for whose thread there are records shows a latest one of them.

## Main results

* `showsLatest_of_deliversThreads`: the preview of a row, by the threads that are delivered;
* `fetchLastMessages_deliversThreads`: what `fetchLastMessages` delivers, and what the rows show.
-/

namespace LearnCode.MessageManager

open Callback ChatListViewController

/-- The labels of the cell show a message. -/
structure Previews (F : Foundation) (message : MessageModel) (cell : ChatUserListCell) : Prop where
  content : cell.lblLastMessage = message.content
  time : cell.lblActiveTiming = F.convertTimestampToTime message.timestamp

/-- Each row of a user whose thread with the current user has records shows the message of one of
them, with a timestamp that is not less than that of any other. -/
def ShowsLatest (F : Foundation) (currentUser : String) (conversations : List (String × Value))
    (lastMessages : List SenderMessages) : Prop :=
  ∀ (x : UserResponse) (conversationData : Value),
    (threadKey currentUser (x.userId.getD ""), conversationData) ∈ conversations →
    storedEntries conversationData ≠ [] →
    ∀ cell, ∃ entry ∈ storedEntries conversationData, ∃ message, IsStored message entry ∧
      (∀ entry' ∈ storedEntries conversationData, ∀ other, IsStored other entry' →
        other.timestamp ≤ message.timestamp) ∧
      Previews F message (cellForRowAt F ⟨currentUser, lastMessages, x⟩ cell)

/-- The last message of a sorted list is a latest one. -/
theorem timestamp_le_of_getLast? {messages : List MessageModel}
    (hsorted : messages.Pairwise (fun a b => a.timestamp ≤ b.timestamp)) {message : MessageModel}
    (hlast : messages.getLast? = some message) {other : MessageModel} (h : other ∈ messages) :
    other.timestamp ≤ message.timestamp := by
  obtain ⟨former, rfl⟩ := List.getLast?_eq_some_iff.mp hlast
  rcases List.mem_append.mp h with h | h
  · exact (List.pairwise_append.mp hsorted).2.2 other h message (List.mem_singleton_self _)
  · rw [List.mem_singleton.mp h]

/-- Rows of lists that deliver the threads show a latest record. -/
theorem showsLatest_of_deliversThreads {conversations : List (String × Value)}
    {lastMessages : List SenderMessages} (h : DeliversThreads conversations lastMessages)
    (F : Foundation) (currentUser : String) :
    ShowsLatest F currentUser conversations lastMessages := by
  intro x conversationData hmem hrecords cell
  rw [ne_eq, ← storedRecords_eq_nil_iff] at hrecords
  have hdata : messagesData conversationData ≠ none := by
    intro hnone
    simp [storedRecords, hnone] at hrecords
  obtain ⟨thread, messages, rfl, hlookup⟩ := (messagesData_ne_none_iff _).mp hdata
  -- the search by the key of the pair finds the entry of the thread
  obtain ⟨t, ht, hkey⟩ := List.mem_map.mp ((h.mem_iff _).mpr ⟨thread, messages, hmem, hlookup⟩)
  obtain ⟨found, hfound⟩ : ∃ found,
      (Row.mk currentUser lastMessages x).senderMessages = some found := by
    refine Option.isSome_iff_exists.mp (List.find?_isSome.mpr ⟨t, ht, ?_⟩)
    simpa using hkey
  have hfoundKey : found.senderReceiverId = threadKey currentUser (x.userId.getD "") := by
    simpa using List.find?_some hfound
  have hfoundMem : found ∈ lastMessages := List.mem_of_find?_eq_some hfound
  have hholds := h.holds found hfoundMem _ (hfoundKey ▸ hmem)
  have hperm := (holdsRecords_iff_perm _ _).mp hholds
  -- which is not empty, and its last message is a latest one
  obtain ⟨message, hlast⟩ : ∃ message, found.messages.getLast? = some message := by
    refine Option.isSome_iff_exists.mp (List.getLast?_isSome.mpr ?_)
    rintro hnil
    rw [hnil] at hperm
    exact hrecords hperm.nil_eq.symm
  -- the messages of the entry are those of the thread, in another order
  have hmessage := hperm.mem_iff.mp (List.mem_of_getLast? hlast)
  rw [storedRecords_eq_map] at hmessage hperm
  obtain ⟨entry, hentry, hstored⟩ := List.mem_map.mp hmessage
  refine ⟨entry, hentry, message, (isStored_iff _ _).mpr hstored.symm, ?_, ?_⟩
  · rintro entry' hentry' other hother
    obtain rfl := (isStored_iff _ _).mp hother
    exact timestamp_le_of_getLast? (h.sorted found hfoundMem) hlast
      (hperm.mem_iff.mpr (List.mem_map_of_mem hentry'))
  · simp only [cellForRowAt, hfound, hlast]
    exact ⟨rfl, rfl⟩

/-- A read of a dictionary delivers what the loop computes, once. -/
theorem settles_fetchLastMessages_iff (user : AuthUser) (conversations : List (String × Value))
    (results : List (List SenderMessages)) :
    Settles (fetchLastMessages (some user) fun lastMessages =>
        .complete lastMessages .done).issued
      [⟨.observeSingleEvent ["conversations"], .value (.dict conversations)⟩] results ↔
      results = [fetchLastMessagesLoop conversations] := by
  rw [fetchLastMessages, Prog.issued_issue, Prog.issued_done]
  refine (settles_reply_iff ?_).trans (Iff.of_eq (congrArg _ ?_))
  · simp [Value.exists_, Value.asDictionary]
  · simp [Value.exists_, Value.asDictionary]

/-- A read of a dictionary delivers its threads, once, and each row of the chat list shows a latest
record of the thread of the current user with its user. -/
theorem fetchLastMessages_deliversThreads (F : Foundation) (user : AuthUser)
    {conversations : List (String × Value)} (h : (conversations.map Prod.fst).Nodup) :
    ∃ lastMessages,
      (∀ results, Settles (fetchLastMessages (some user) fun lastMessages =>
          .complete lastMessages .done).issued
        [⟨.observeSingleEvent ["conversations"], .value (.dict conversations)⟩] results ↔
          results = [lastMessages]) ∧
      DeliversThreads conversations lastMessages ∧
      ShowsLatest F user.uid conversations lastMessages := by
  have hthreads := deliversThreads_fetchLastMessagesLoop h
  exact ⟨fetchLastMessagesLoop conversations, settles_fetchLastMessages_iff user conversations,
    hthreads, showsLatest_of_deliversThreads hthreads F user.uid⟩

/-- Two records of `a` and `b`, the second with its content only, and a thread without a dictionary
of messages. -/
def twoMessages : List (String × Value) :=
  [("a_b", .dict [("messages", .dict [
      ("m", .dict [("senderId", .string "a"), ("receiverId", .string "b"),
        ("content", .string "second"), ("timestamp", .double 2)]),
      ("n", .dict [("content", .string "first")])])]),
    ("a_c", .dict [("messages", .null)])]

/-- One thread is delivered, with the defaults in its first message, and the row of `b` shows the
second one. -/
theorem fetchLastMessages_deliversThreads_twoMessages :
    ∃ lastMessages,
      lastMessages = [⟨"a_b", [⟨"n", "", "", "first", 0⟩, ⟨"m", "a", "b", "second", 2⟩]⟩] ∧
      DeliversThreads twoMessages lastMessages ∧
      ShowsLatest ⟨fun s => some ⟨s⟩, fun _ => "9:41 AM"⟩ "a" twoMessages lastMessages := by
  obtain ⟨lastMessages, hread, hthreads, hrows⟩ :=
    fetchLastMessages_deliversThreads ⟨fun s => some ⟨s⟩, fun _ => "9:41 AM"⟩ ⟨"a", none⟩
      (show (twoMessages.map Prod.fst).Nodup by decide)
  refine ⟨lastMessages, ?_, hthreads, hrows⟩
  have hloop : [fetchLastMessagesLoop twoMessages] = [lastMessages] :=
    (hread _).mp ((settles_fetchLastMessages_iff _ _ _).mpr rfl)
  rw [← List.singleton_inj.mp hloop]
  decide +kernel

end LearnCode.MessageManager
