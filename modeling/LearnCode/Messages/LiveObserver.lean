import LearnCode.Messages.ThreadRead

/-!
# Observing one thread

`observeConversations` runs the body of `getAllConversations` on each snapshot it is told, over
one array that its closure captures. The array is emptied only by a snapshot that does not exist,
so what has been reported once is reported again with every later snapshot.

## Main definitions

* `observeConversations`: the reports of one registration;
* `AgreesWithRead`: a report is what a single read of the same snapshot delivers, up to the order
  of messages with equal timestamps;
* `Renewed`: after a snapshot with messages of the pair no dictionary is told before a snapshot
  that does not exist.

## Main results

* `agreesWithRead_dictionary_iff`: a report on a dictionary agrees when the captured array is empty;
* `agreesWithReads_iff_renewed`: the reports on a sequence of snapshots all agree exactly when
  the sequence is renewed.
-/

namespace LearnCode.MessageManager

open Callback

/-! ## The observer -/

/-- What the closure of `observeConversations` reports for each snapshot, from the captured array
`messages` on; none where the completion handler is not called. -/
def reports (conversationPath : String) :
    List MessageModel → List Value → List (Option (List MessageModel))
  | _, [] => []
  | messages, snapshot :: snapshots =>
    let (messages, report) := observeConversationsOnValue conversationPath snapshot messages
    report :: reports conversationPath messages snapshots

/-- `observeConversations`: the reports of one registration. Without a user nothing is
observed. -/
def observeConversations (currentUser : Option AuthUser) (receiverId : String)
    (snapshots : List Value) : List (Option (List MessageModel)) :=
  match currentUser with
  | none => []
  | some user => reports (threadKey user.uid receiverId) [] snapshots

/-! ## The requirement -/

/-- Two lists differ at most in the order of messages with equal timestamps. -/
structure SameUpToTies (messages messages' : List MessageModel) : Prop where
  perm : messages.Perm messages'
  sorted : messages.Pairwise (fun a b => a.timestamp ≤ b.timestamp)
  sorted' : messages'.Pairwise (fun a b => a.timestamp ≤ b.timestamp)

/-- The report on a snapshot is what `getAllConversations` delivers when it reads this snapshot,
or neither calls its completion handler. -/
def AgreesWithRead (user : AuthUser) (receiverId : String) (snapshot : Value)
    (report : Option (List MessageModel)) : Prop :=
  ∃ delivered, Settles (getAllConversations (some user) receiverId fun messages =>
      .complete messages .done).issued
    [⟨.observeSingleEvent ["conversations"], .value snapshot⟩] delivered ∧
    List.Forall₂ SameUpToTies report.toList delivered

/-- Each report of a registration agrees with a read of its snapshot. -/
def AgreesWithReads (user : AuthUser) (receiverId : String) (snapshots : List Value) : Prop :=
  List.Forall₂ (AgreesWithRead user receiverId) snapshots
    (observeConversations (some user) receiverId snapshots)

/-! ## The condition -/

/-- The snapshot is a dictionary with a record in a thread whose key contains the path. -/
def HoldsMessages (conversationPath : String) (snapshot : Value) : Prop :=
  ∃ conversations, snapshot.asDictionary = some conversations ∧
    ∃ thread ∈ conversations, contains thread.1 conversationPath = true ∧
      storedRecords thread.2 ≠ []

/-- No dictionary is told before a snapshot that does not exist. -/
def GoneFirst : List Value → Prop
  | [] => True
  | snapshot :: snapshots =>
    snapshot.asDictionary = none ∧ (snapshot.exists_ = false ∨ GoneFirst snapshots)

/-- After a snapshot that holds messages, no dictionary is told before a snapshot that does not
exist. -/
def Renewed (conversationPath : String) : List Value → Prop
  | [] => True
  | snapshot :: snapshots =>
    (HoldsMessages conversationPath snapshot → GoneFirst snapshots) ∧
      Renewed conversationPath snapshots

/-! ## One snapshot -/

/-- Sorted lists of the same messages differ at most in the order of ties. -/
theorem sameUpToTies_sortByTimestamp {messages messages' : List MessageModel}
    (h : messages.Perm messages') :
    SameUpToTies (sortByTimestamp messages) (sortByTimestamp messages') where
  perm := (sortByTimestamp_perm messages).trans (h.trans (sortByTimestamp_perm messages').symm)
  sorted := sortByTimestamp_pairwise messages
  sorted' := sortByTimestamp_pairwise messages'

/-- On a snapshot that does not exist the array is emptied, and the report agrees. -/
theorem observe_of_not_exists {conversationPath : String} {snapshot : Value}
    (hgone : snapshot.exists_ = false) (messages : List MessageModel) :
    observeConversationsOnValue conversationPath snapshot messages = ([], some []) := by
  simp [observeConversationsOnValue, hgone]

/-- On another value that is not a dictionary nothing is reported, and the array is kept. -/
theorem observe_of_not_dictionary {conversationPath : String} {snapshot : Value}
    (hexists : snapshot.exists_ = true) (hother : snapshot.asDictionary = none)
    (messages : List MessageModel) :
    observeConversationsOnValue conversationPath snapshot messages = (messages, none) := by
  simp [observeConversationsOnValue, hexists, hother]

/-- The report on a snapshot that is not a dictionary agrees with a read of it. -/
theorem agreesWithRead_of_not_dictionary (user : AuthUser) (receiverId : String)
    {snapshot : Value} (hother : snapshot.asDictionary = none) (messages : List MessageModel) :
    AgreesWithRead user receiverId snapshot
      (observeConversationsOnValue (threadKey user.uid receiverId) snapshot messages).2 := by
  refine ⟨_, (settles_getAllConversationsOnValue_iff user receiverId snapshot _).mpr rfl, ?_⟩
  cases hexists : snapshot.exists_ with
  | false =>
    -- both report the empty list
    rw [observe_of_not_exists hexists, getAllConversationsOnValue, if_neg (by simp [hexists])]
    exact .cons (sameUpToTies_sortByTimestamp (.refl [])) .nil
  | true =>
    -- neither reports anything
    rw [observe_of_not_dictionary hexists hother, getAllConversationsOnValue, if_pos hexists,
      hother]
    exact .nil

/-- The report on a dictionary agrees with a read of it exactly when the captured array is
empty. -/
theorem agreesWithRead_dictionary_iff (user : AuthUser) (receiverId : String)
    {snapshot : Value} {conversations : List (String × Value)}
    (hdict : snapshot.asDictionary = some conversations) (messages : List MessageModel) :
    AgreesWithRead user receiverId snapshot
      (observeConversationsOnValue (threadKey user.uid receiverId) snapshot messages).2 ↔
    messages = [] := by
  obtain rfl := Value.eq_dict_of_asDictionary hdict
  constructor
  · rintro ⟨delivered, hread, hagree⟩
    rw [settles_getAllConversationsOnValue_iff] at hread
    subst hread
    obtain ⟨hsame, -⟩ := List.forall₂_cons.mp hagree
    -- both lists hold the messages of the snapshot, and the report those of the array too
    have hlength := hsame.perm.length_eq
    simp only [(sortByTimestamp_perm _).length_eq, collectMessages_eq, List.length_append,
      List.length_nil] at hlength
    exact List.eq_nil_of_length_eq_zero (by omega)
  · rintro rfl
    refine ⟨_, (settles_getAllConversationsOnValue_iff user receiverId _ _).mpr rfl, ?_⟩
    exact .cons (sameUpToTies_sortByTimestamp (.refl _)) .nil

/-- After a dictionary the array holds messages if it held some, or the dictionary does. -/
theorem observe_dictionary_ne_nil_iff {conversationPath : String} {snapshot : Value}
    {conversations : List (String × Value)}
    (hdict : snapshot.asDictionary = some conversations) (messages : List MessageModel) :
    (observeConversationsOnValue conversationPath snapshot messages).1 ≠ [] ↔
      messages ≠ [] ∨ HoldsMessages conversationPath snapshot := by
  obtain rfl := Value.eq_dict_of_asDictionary hdict
  have hholds : HoldsMessages conversationPath (.dict conversations) ↔
      (conversations.flatMap fun conversation =>
        if contains conversation.1 conversationPath then storedRecords conversation.2
        else []) ≠ [] := by
    rw [ne_eq, List.flatMap_eq_nil_iff]
    simp [HoldsMessages, Value.asDictionary]
  rw [hholds]
  change sortByTimestamp _ ≠ [] ↔ _
  rw [ne_eq, ← List.length_eq_zero_iff, (sortByTimestamp_perm _).length_eq,
    List.length_eq_zero_iff, collectMessages_eq, List.append_eq_nil_iff, not_and_or]

/-! ## A sequence of snapshots -/

/-- From an array on, the reports all agree exactly when the sequence is renewed, and, if the
array holds messages, begins with no dictionary before a snapshot that does not exist. -/
theorem agrees_reports_iff (user : AuthUser) (receiverId : String) (messages : List MessageModel)
    (snapshots : List Value) :
    List.Forall₂ (AgreesWithRead user receiverId) snapshots
        (reports (threadKey user.uid receiverId) messages snapshots) ↔
      (messages ≠ [] → GoneFirst snapshots) ∧
        Renewed (threadKey user.uid receiverId) snapshots := by
  induction snapshots generalizing messages with
  | nil => simp [reports, GoneFirst, Renewed]
  -- the induction is on the snapshots, for any content of the captured array
  | cons snapshot snapshots ih =>
    simp only [reports, List.forall₂_cons, ih, GoneFirst, Renewed]
    cases hdict : snapshot.asDictionary with
    | some conversations =>
      rw [agreesWithRead_dictionary_iff user receiverId hdict,
        observe_dictionary_ne_nil_iff hdict]
      by_cases hmessages : messages = [] <;> simp [hmessages]
    | none =>
      have hholds : ¬HoldsMessages (threadKey user.uid receiverId) snapshot := by
        simp [HoldsMessages, hdict]
      have hagree := agreesWithRead_of_not_dictionary user receiverId hdict messages
      cases hexists : snapshot.exists_ with
      | false =>
        -- the array is emptied, and the rest starts as at the registration
        rw [observe_of_not_exists hexists] at hagree ⊢
        simp [hagree, hholds]
      | true =>
        -- the array is kept, and waits for the next snapshot
        rw [observe_of_not_dictionary hexists hdict] at hagree ⊢
        simp [hagree, hholds]

/-- The reports of a registration all agree with reads of their snapshots if and only if, after
each snapshot that holds messages, no dictionary is told before a snapshot that does not exist. -/
theorem agreesWithReads_iff_renewed (user : AuthUser) (receiverId : String)
    (snapshots : List Value) :
    AgreesWithReads user receiverId snapshots ↔
      Renewed (threadKey user.uid receiverId) snapshots := by
  refine (agrees_reports_iff user receiverId [] snapshots).trans ?_
  simp

/-- The only message of `a` and `b` is removed while another thread stays. -/
def removedMessage : List Value :=
  let others :=
    ("c_d", Value.dict [("messages", .dict [("n", messageData ⟨"", "c", "d", "hi", 2⟩)])])
  [.dict [("a_b", .dict [("messages", .dict [("m", messageData ⟨"", "a", "b", "hello", 1⟩)])]),
    others], .dict [others]]

/-- The removed message is reported again. -/
theorem not_agreesWithReads_removedMessage : ¬AgreesWithReads ⟨"a", none⟩ "b" removedMessage := by
  intro h
  obtain ⟨-, hsecond⟩ := List.forall₂_cons.mp h
  obtain ⟨hsecond, -⟩ := List.forall₂_cons.mp hsecond
  have hempty := (agreesWithRead_dictionary_iff ⟨"a", none⟩ "b" rfl _).mp hsecond
  revert hempty
  decide

end LearnCode.MessageManager
