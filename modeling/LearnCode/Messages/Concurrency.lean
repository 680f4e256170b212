import LearnCode.Messages.ThreadKey

/-!
# Concurrent sends and deletes

Any number of clients write into the threads at once: a send is one update of one message
path, a deletion is one removal for each selected id. The paths of different messages lie
apart, so the final database does not depend on the order of the operations.

## Main definitions

* `Sending`, `Deletion` and `Call`: the calls of the clients;
* `ConcurrentRun`: calls whose requests are answered in an interleaved order;
* `ConcurrentRun.final`: the database after the acknowledged operations, in their order;
* `Written` and `Removed`: a message whose write, or whose removal, is acknowledged;
* `StoresMessage`: a node has the fields of a message and nothing else;
* `ExactMessages`: the final database has the messages written and not removed, and is
  otherwise unchanged.

## Main results

* `ConcurrentRun.mem_ops_iff`: the operations of a run are its acknowledged writes and
  removals;
* `ConcurrentRun.orderly`: they are orderly;
* `exactMessages_and_eq_of_perm`: the final database, for every order.
-/

namespace LearnCode.MessageManager

open Callback PathStore

/-- The node of a message. -/
def messagePath (key messageID : String) : Path :=
  ["conversations", key, "messages", messageID]

/-- Message paths are equal or lie apart. -/
theorem messagePath_eq_or_apart (key messageID key' messageID' : String) :
    messagePath key messageID = messagePath key' messageID' ∨
      Apart (messagePath key messageID) (messagePath key' messageID') := by
  by_cases h : messagePath key messageID = messagePath key' messageID'
  · exact .inl h
  · exact .inr (apart_of_length_eq rfl h)

theorem messagePath_inj {key messageID key' messageID' : String} :
    messagePath key messageID = messagePath key' messageID' ↔
      key = key' ∧ messageID = messageID' := by
  simp [messagePath]

/-! ## The calls -/

/-- A call of `sendMessagesToUser` or `sendMessagesToAdmin`, with the key that `childByAutoId`
draws for it. -/
structure Sending where
  /-- The message that is sent. -/
  message : MessageModel
  /-- The key drawn for the message. -/
  autoId : Key
  /-- Whether the message is sent to the admin. -/
  toAdmin : Bool
  /-- The sender's id is legal. -/
  isValid_sender : isValidKey message.senderId = true
  /-- The receiver's id is legal. -/
  isValid_receiver : isValidKey message.receiverId = true

namespace Sending

/-- The key of the thread of the message. -/
def key (s : Sending) : String := threadKey s.message.senderId s.message.receiverId

/-- The call. -/
def body (s : Sending) : Prog (Option NSError) :=
  if s.toAdmin then
    sendMessagesToAdmin s.autoId.id s.message fun error => .complete error .done
  else
    sendMessagesToUser s.autoId.id s.message fun error => .complete error .done

/-- The update that the call asks for. -/
def request (s : Sending) : Request :=
  .updateChildValues []
    [("/" ++ ("conversations/" ++ s.key ++ "/messages/" ++ s.autoId.id), messageData s.message)]

/-- The call asks for one update. -/
theorem issued_body (s : Sending) :
    s.body.issued = [⟨s.request, fun error => .complete error .done⟩] := by
  have hchild := child_of_isValidKey (isValidKey_threadKey s.isValid_sender s.isValid_receiver)
  unfold body sendMessagesToAdmin sendMessagesToUser sendMessage
  split_ifs <;> simp [hchild, request, key]

/-- A call is settled by one reply to its update, and reports it. -/
theorem settles_body_iff (s : Sending) {trace : List Event}
    {results : List (Option NSError)} :
    Settles s.body.issued trace results ↔
      ∃ error : Option NSError, trace = [⟨s.request, error⟩] ∧ results = [error] := by
  rw [issued_body, settles_singleton_iff]
  constructor
  · rintro ⟨error, trace', results', hrest, rfl, rfl⟩
    obtain ⟨rfl, rfl⟩ := settles_nil_iff.mp hrest
    exact ⟨error, rfl, rfl⟩
  · rintro ⟨error, rfl, rfl⟩
    exact ⟨error, [], [], .nil, rfl, rfl⟩

/-- The update replaces the node of the message, and no other. -/
theorem databaseOps_request (s : Sending) :
    Event.databaseOps ⟨s.request, (none : Option NSError)⟩ =
      [.write (messagePath s.key s.autoId.id) fun q => (messageData s.message).leaf q] := by
  have hkey : isValidKey s.key = true :=
    isValidKey_threadKey s.isValid_sender s.isValid_receiver
  have hpath : "conversations/" ++ s.key ++ "/messages/" ++ s.autoId.id =
      "conversations" ++ "/" ++ (s.key ++ "/" ++ ("messages" ++ "/" ++ s.autoId.id)) := by
    simp [← String.toList_inj]
  have hpieces : pieces ("/" ++ ("conversations/" ++ s.key ++ "/messages/" ++ s.autoId.id)) =
      messagePath s.key s.autoId.id := by
    rw [pieces_slash_append, hpath, pieces_key_slash (by decide), pieces_key_slash hkey,
      pieces_key_slash (by decide), pieces_of_isValidKey s.autoId.isValid, messagePath]
  simp [request, Event.databaseOps, updateOps, hpieces]

end Sending

/-- `deleteUserConversations` asks for one removal for each id. -/
theorem issued_deleteUserConversations {ρ : Type} (conversationId : Key) (messageID : List Key)
    (senderId receiverId : String) (completion : String → Prog ρ) :
    (deleteUserConversations conversationId.id (messageID.map Key.id) senderId receiverId
      completion).issued = messageID.map fun id =>
        ⟨.removeValue (messagePath conversationId.id id.id), fun _ => .done⟩ := by
  unfold deleteUserConversations
  induction messageID with
  | nil => rfl
  | cons id messageID ih =>
    have hchild : (child ["conversations"] conversationId.id).bind
        (fun conversation => child (conversation ++ ["messages"]) id.id) =
          some (messagePath conversationId.id id.id) := by
      rw [child_of_isValidKey conversationId.isValid, Option.bind_some,
        child_of_isValidKey id.isValid]
      rfl
    simp only [List.map_cons, List.foldr_cons, hchild, Prog.issued_issue]
    exact congrArg _ ih

/-- A call of `deleteUserConversations`. The ids are keys that were read from the database. -/
structure Deletion where
  /-- The key of the thread. -/
  conversationId : Key
  /-- The selected ids, in the order of their selection. -/
  messageID : List Key
  senderId : String
  receiverId : String

namespace Deletion

/-- The call. -/
def body (d : Deletion) : Prog (Option NSError) :=
  deleteUserConversations d.conversationId.id (d.messageID.map Key.id) d.senderId d.receiverId
    fun _ => .done

/-- The call asks for one removal for each id. -/
theorem issued_body (d : Deletion) :
    d.body.issued = d.messageID.map fun id =>
      ⟨.removeValue (messagePath d.conversationId.id id.id), fun _ => .done⟩ :=
  issued_deleteUserConversations d.conversationId d.messageID d.senderId d.receiverId _

end Deletion

/-- A call of a client. -/
inductive Call : Type where
  | send (s : Sending)
  | delete (d : Deletion)

/-- The call. -/
def Call.body : Call → Prog (Option NSError)
  | send s => s.body
  | delete d => d.body

/-! ## Runs -/

/-- Calls of clients, with the replies to all that they ask for in the order in which the
operations reach the server. -/
structure ConcurrentRun (ι : Type) [DecidableEq ι] where
  /-- The calls. -/
  calls : ι → Call
  /-- No key is drawn twice. -/
  fresh : ∀ i j s t, calls i = .send s → calls j = .send t → s.autoId = t.autoId → i = j
  /-- The replies, each with its call. -/
  trace : List (ι × Event)
  /-- What each call reports. -/
  results : ι → List (Option NSError)
  /-- The replies answer all requests of the calls. -/
  interleaves : Interleaves (fun i => (calls i).body.issued) trace results
  /-- The removal of a message follows its write. -/
  removedAfterWritten : (databaseOps (trace.map Prod.snd)).Pairwise
    (fun a b => ∀ path content, a = .remove path → b ≠ .write path content)

namespace ConcurrentRun

variable {ι : Type} [DecidableEq ι] (r : ConcurrentRun ι)

/-- The acknowledged operations, in their order. -/
def ops : List (Op String Scalar) := databaseOps (r.trace.map Prod.snd)

/-- The database after the run. -/
def final (before : Database) : Database := applyAll r.ops before

/-- A message that was sent, and whose write succeeded. -/
def Written (key messageID : String) (message : MessageModel) : Prop :=
  ∃ i s, r.calls i = .send s ∧ s.key = key ∧ s.autoId.id = messageID ∧ s.message = message ∧
    r.results i = [none]

/-- A message whose removal under the key succeeded. -/
def Removed (key messageID : String) : Prop :=
  ∃ i, (i, (⟨.removeValue (messagePath key messageID), none⟩ : Event)) ∈ r.trace

variable {r}

/-- The only reply to a send is the one to its update. -/
theorem project_trace_of_send {i : ι} {s : Sending} (h : r.calls i = .send s) :
    ∃ error : Option NSError,
      project i r.trace = [⟨s.request, error⟩] ∧ r.results i = [error] := by
  have hsettles := r.interleaves.settles i
  rw [h] at hsettles
  exact s.settles_body_iff.mp hsettles

/-- The replies to a deletion are replies to its removals. -/
theorem mem_trace_of_delete {i : ι} {d : Deletion} {e : Event}
    (h : r.calls i = .delete d) (he : (i, e) ∈ r.trace) :
    ∃ messageID error,
      e = ⟨.removeValue (messagePath d.conversationId.id messageID), error⟩ := by
  have hsettles := r.interleaves.settles i
  rw [h, Call.body, Deletion.issued_body] at hsettles
  have hperm := hsettles.requests_perm (by simp)
  have hrequest : e.1 ∈ (project i r.trace).map Sigma.fst :=
    List.mem_map_of_mem (mem_project.mpr he)
  rw [hperm.mem_iff] at hrequest
  obtain ⟨request, reply⟩ := e
  obtain ⟨id, -, rfl⟩ : ∃ id ∈ d.messageID,
      .removeValue (messagePath d.conversationId.id id.id) = request := by
    simpa using hrequest
  exact ⟨id.id, reply, rfl⟩

/-- The operations of a run are the acknowledged writes and removals of messages. -/
theorem mem_ops_iff {op : Op String Scalar} :
    op ∈ r.ops ↔
      (∃ key messageID message, r.Written key messageID message ∧
        op = .write (messagePath key messageID) fun q => (messageData message).leaf q) ∨
      ∃ key messageID, r.Removed key messageID ∧ op = .remove (messagePath key messageID) := by
  rw [ops, mem_databaseOps]
  constructor
  · rintro ⟨e, he, hop⟩
    obtain ⟨i, hi⟩ := mem_map_snd_iff.mp he
    -- a failed call has no operation, and a successful one has that of its request
    cases hcall : r.calls i with
    | send s =>
      obtain ⟨error, htrace, hresults⟩ := project_trace_of_send hcall
      obtain rfl : e = ⟨s.request, error⟩ := by simpa [htrace] using hi
      cases error with
      | some error => cases hop
      | none =>
        rw [s.databaseOps_request, List.mem_singleton] at hop
        exact .inl ⟨s.key, s.autoId.id, s.message, ⟨i, s, hcall, rfl, rfl, rfl, hresults⟩, hop⟩
    | delete d =>
      obtain ⟨messageID, error, rfl⟩ := mem_trace_of_delete hcall (mem_project.mp hi)
      cases error with
      | some error => cases hop
      | none =>
        exact .inr ⟨d.conversationId.id, messageID, ⟨i, mem_project.mp hi⟩,
          List.mem_singleton.mp hop⟩
  · rintro (⟨key, messageID, message, ⟨i, s, hcall, rfl, rfl, rfl, hresults⟩, rfl⟩ |
      ⟨key, messageID, ⟨i, hi⟩, rfl⟩)
    · obtain ⟨error, htrace, hresults'⟩ := project_trace_of_send hcall
      obtain rfl : error = none := (List.cons.inj (hresults'.symm.trans hresults)).1
      refine ⟨⟨s.request, none⟩, mem_map_snd_iff.mpr ⟨i, by simp [htrace]⟩, ?_⟩
      rw [s.databaseOps_request]
      exact List.mem_singleton.mpr rfl
    · exact ⟨_, List.mem_map_of_mem hi, List.mem_singleton.mpr rfl⟩

/-- The path of every operation is that of a message. -/
theorem path_of_mem_ops {op : Op String Scalar} (h : op ∈ r.ops) :
    ∃ key messageID, op.path = messagePath key messageID ∧
      (r.Removed key messageID ∨ ∃ message, r.Written key messageID message) := by
  rcases mem_ops_iff.mp h with ⟨key, id, message, hw, rfl⟩ | ⟨key, id, hr, rfl⟩
  · exact ⟨key, id, rfl, .inr ⟨message, hw⟩⟩
  · exact ⟨key, id, rfl, .inl hr⟩

/-- A key is drawn for one message only. -/
theorem Written.unique {key key' messageID : String} {message message' : MessageModel}
    (h : r.Written key messageID message) (h' : r.Written key' messageID message') :
    key = key' ∧ message = message' := by
  obtain ⟨i, s, hs, rfl, hid, rfl, -⟩ := h
  obtain ⟨j, t, ht, rfl, hid', rfl, -⟩ := h'
  have hauto : s.autoId = t.autoId := by
    rw [Key.mk.injEq]
    exact hid.trans hid'.symm
  obtain rfl := r.fresh i j s t hs ht hauto
  obtain rfl : s = t := Call.send.inj (hs.symm.trans ht)
  exact ⟨rfl, rfl⟩

/-- The operations of a run are orderly. -/
theorem orderly (r : ConcurrentRun ι) : Orderly r.ops where
  separate a ha b hb := by
    obtain ⟨key, id, hpa, -⟩ := path_of_mem_ops ha
    obtain ⟨key', id', hpb, -⟩ := path_of_mem_ops hb
    rw [hpa, hpb]
    exact messagePath_eq_or_apart key id key' id'
  writeOnce p v v' hv hv' := by
    rcases mem_ops_iff.mp hv with ⟨key, id, m, hw, heq⟩ | ⟨_, _, _, heq⟩
    · rcases mem_ops_iff.mp hv' with ⟨key', id', m', hw', heq'⟩ | ⟨_, _, _, heq'⟩
      · -- two writes of one path are one send, since its key is drawn once
        obtain ⟨rfl, rfl⟩ := Op.write.inj heq
        obtain ⟨hpath, rfl⟩ := Op.write.inj heq'
        obtain ⟨rfl, rfl⟩ := messagePath_inj.mp hpath
        rw [(hw.unique hw').2]
      · cases heq'
    · cases heq
  writeFirst := r.removedAfterWritten

end ConcurrentRun

/-- The node at a path has the sender, the receiver, the content and the timestamp of a message, and
nothing else. -/
structure StoresMessage (db : Database) (path : Path) (message : MessageModel) : Prop where
  senderId : db (path ++ ["senderId"]) = some (.string message.senderId)
  receiverId : db (path ++ ["receiverId"]) = some (.string message.receiverId)
  content : db (path ++ ["content"]) = some (.string message.content)
  timestamp : db (path ++ ["timestamp"]) = some (.double message.timestamp)
  only : ∀ q, q ∉ [["senderId"], ["receiverId"], ["content"], ["timestamp"]] → db (path ++ q) = none

/-- A node with the leaves of the dictionary of a message has its fields. -/
theorem storesMessage_of_leaf {db : Database} {path : Path} {message : MessageModel}
    (h : ∀ q, db (path ++ q) = (messageData message).leaf q) : StoresMessage db path message where
  senderId := h _
  receiverId := h _
  content := h _
  timestamp := h _
  only q hq := by
    rw [h]
    cases q with
    | nil => rfl
    | cons key q =>
      simp only [messageData, Value.leaf_cons, Value.children, List.lookup_cons, List.lookup_nil]
      -- a scalar under one of the keys has no leaf below it
      cases q with
      | nil =>
        obtain ⟨hsender, hreceiver, hcontent, htime⟩ : key ≠ "senderId" ∧ key ≠ "receiverId" ∧
            key ≠ "content" ∧ key ≠ "timestamp" := by simpa using hq
        simp [beq_eq_false_iff_ne.mpr, hsender, hreceiver, hcontent, htime]
      | cons key' q => repeat' split <;> try rfl

/-- `after` has, under every thread key, exactly the messages that the run wrote and did not
remove, each with its fields, and what `before` had there of messages the run did not touch;
everything outside the messages written and removed is as in `before`. -/
structure ExactMessages {ι : Type} [DecidableEq ι] (r : ConcurrentRun ι)
    (before after : Database) : Prop where
  /-- A message whose removal succeeded is gone. -/
  removed : ∀ key messageID, r.Removed key messageID →
    ∀ q, after (messagePath key messageID ++ q) = none
  /-- A message whose write succeeded, and no removal, has the fields it was sent with. -/
  written : ∀ key messageID message, r.Written key messageID message →
    ¬r.Removed key messageID → StoresMessage after (messagePath key messageID) message
  /-- A message that was neither written nor removed is as before. -/
  untouched : ∀ key messageID, (¬∃ message, r.Written key messageID message) →
    ¬r.Removed key messageID →
    ∀ q, after (messagePath key messageID ++ q) = before (messagePath key messageID ++ q)
  /-- A node apart from the messages written and removed is as before. -/
  elsewhere : ∀ path, (∀ key messageID,
      (r.Removed key messageID ∨ ∃ message, r.Written key messageID message) →
      Apart (messagePath key messageID) path) →
    after path = before path

namespace ConcurrentRun

variable {ι : Type} [DecidableEq ι]

/-- A node apart from all messages of the run is not changed. -/
theorem final_apply_of_apart (r : ConcurrentRun ι) (before : Database) {path : Path}
    (h : ∀ key messageID, (r.Removed key messageID ∨ ∃ message, r.Written key messageID message) →
      Apart (messagePath key messageID) path) : r.final before path = before path := by
  refine applyAll_apply_of_apart (fun op hop => ?_) before
  obtain ⟨key, id, hpath, htouched⟩ := path_of_mem_ops hop
  rw [hpath]
  exact h key id htouched

/-- The leaves of a message written and not removed are those that were sent. -/
theorem final_apply_of_written (r : ConcurrentRun ι) (before : Database) {key messageID : String}
    {message : MessageModel} (hwritten : r.Written key messageID message)
    (hkept : ¬r.Removed key messageID) (q : Path) :
    r.final before (messagePath key messageID ++ q) = (messageData message).leaf q := by
  -- the write decides the content of the path, as no removal of it is in the run
  refine applyAll_apply_of_write_mem r.orderly
    (mem_ops_iff.mpr (.inl ⟨key, messageID, message, hwritten, rfl⟩)) (fun hmem => ?_) before q
  rcases mem_ops_iff.mp hmem with ⟨_, _, _, _, heq⟩ | ⟨key', id', hremoved, heq⟩
  · cases heq
  · obtain ⟨rfl, rfl⟩ := messagePath_inj.mp (Op.remove.inj heq)
    exact hkept hremoved

/-- The database after a run has the messages written and not removed. -/
theorem exactMessages_final (r : ConcurrentRun ι) (before : Database) :
    ExactMessages r before (r.final before) where
  removed key messageID hremoved q :=
    applyAll_apply_of_remove_mem r.orderly
      (mem_ops_iff.mpr (.inr ⟨key, messageID, hremoved, rfl⟩)) before q
  written _ _ _ hwritten hkept :=
    storesMessage_of_leaf (r.final_apply_of_written before hwritten hkept)
  untouched key messageID hnew hkept q := by
    refine r.final_apply_of_apart before fun key' id' htouched => ?_
    refine Apart.append_right ?_ q
    rcases messagePath_eq_or_apart key' id' key messageID with heq | hapart
    · obtain ⟨rfl, rfl⟩ := messagePath_inj.mp heq
      rcases htouched with hremoved | hwritten
      · exact absurd hremoved hkept
      · exact absurd hwritten hnew
    · exact hapart
  elsewhere path h := r.final_apply_of_apart before h

/-- Two runs that differ only in the order of the replies leave the same database. -/
theorem final_eq_of_perm {r r' : ConcurrentRun ι} (h : r.trace.Perm r'.trace)
    (before : Database) : r.final before = r'.final before :=
  applyAll_eq_of_perm r.orderly r'.orderly ((h.map Prod.snd).flatMap_right _) before

end ConcurrentRun

/-- For every set of sends and deletions and every order of their operations, the final
database has exactly the messages written and not removed and is unchanged elsewhere; it is
the same for all orders. -/
theorem exactMessages_and_eq_of_perm {ι : Type} [DecidableEq ι] (r r' : ConcurrentRun ι)
    (h : r.trace.Perm r'.trace) (before : Database) :
    ExactMessages r before (r.final before) ∧ r'.final before = r.final before :=
  ⟨r.exactMessages_final before, (ConcurrentRun.final_eq_of_perm h before).symm⟩

/-! ## A small run -/

/-- A message of `a` to `b`. -/
def hello : Sending :=
  ⟨⟨"", "a", "b", "hello", 1⟩, ⟨"m", by decide⟩, false, by decide, by decide⟩

/-- A message of `b` to `a`. -/
def hi : Sending := ⟨⟨"", "b", "a", "hi", 2⟩, ⟨"n", by decide⟩, true, by decide, by decide⟩

/-- The removal of the first message. -/
def unsend : Deletion := ⟨⟨"a_b", by decide⟩, [hello.autoId], "a", "b"⟩

/-- Three clients. -/
inductive Client : Type where
  | sender | replier | deleter
deriving DecidableEq

namespace Client

/-- Two users write to each other, and one of them deletes the first message. -/
def call : Client → Call
  | sender => .send hello
  | replier => .send hi
  | deleter => .delete unsend

/-- What each call reports when it succeeds. -/
def results : Client → List (Option NSError)
  | sender => [none]
  | replier => [none]
  | deleter => []

/-- The reply to a client whose operation succeeds. -/
def acknowledged : Client → Client × Event
  | sender => (sender, ⟨hello.request, none⟩)
  | replier => (replier, ⟨hi.request, none⟩)
  | deleter => (deleter, ⟨.removeValue (messagePath "a_b" "m"), none⟩)

/-- The first message is written first. -/
def run : ConcurrentRun Client where
  calls := call
  fresh i j s t hi hj h := by
    cases i <;> cases j <;> cases hi <;> cases hj <;>
      first | rfl | exact absurd h (by decide)
  trace := [sender, replier, deleter].map acknowledged
  results := results
  interleaves := by
    have h : ∃ results', Interleaves (fun i => (call i).body.issued)
        ([sender, replier, deleter].map acknowledged) results' ∧ results' = results := by
      refine ⟨_, .reply_first _ (by exact hello.issued_body) (.reply_first _
        (by exact hi.issued_body) (.reply_first _ (by exact unsend.issued_body) (.nil ?_))), ?_⟩
      · rintro (_ | _ | _) <;> rfl
      · funext i
        cases i <;> rfl
    obtain ⟨_, h, rfl⟩ := h
    exact h
  removedAfterWritten := by
    simp [acknowledged, hello.databaseOps_request, hi.databaseOps_request]

/-- The second message is written first. -/
def run' : ConcurrentRun Client where
  calls := call
  fresh := run.fresh
  trace := [replier, sender, deleter].map acknowledged
  results := results
  interleaves := by
    have h : ∃ results', Interleaves (fun i => (call i).body.issued)
        ([replier, sender, deleter].map acknowledged) results' ∧ results' = results := by
      refine ⟨_, .reply_first _ (by exact hi.issued_body) (.reply_first _
        (by exact hello.issued_body) (.reply_first _ (by exact unsend.issued_body) (.nil ?_))), ?_⟩
      · rintro (_ | _ | _) <;> rfl
      · funext i
        cases i <;> rfl
    obtain ⟨_, h, rfl⟩ := h
    exact h
  removedAfterWritten := by
    simp [acknowledged, hello.databaseOps_request, hi.databaseOps_request]

end Client

/-- The two orders of the small run leave the second message alone. -/
theorem exactMessages_and_eq_of_perm_clients :
    ExactMessages Client.run (fun _ => none) (Client.run.final fun _ => none) ∧
      Client.run'.final (fun _ => none) = Client.run.final fun _ => none :=
  exactMessages_and_eq_of_perm Client.run Client.run' (List.Perm.swap ..) fun _ => none

end LearnCode.MessageManager
