import LearnCode.Messages.LastMessages

/-!
# The order of messages with equal timestamps

A dictionary is enumerated in an arbitrary order, which the stable sort by timestamps keeps among
messages with equal timestamps. The readers deliver the same lists for all orders of enumeration
exactly when no two different records that they sort together have the same timestamp.

## Main definitions

* `keptRecords`: the records that `getAllConversations` keeps for a pair of users;
* `TimestampsDecide`: records with equal timestamps are equal;
* `OrderIndependent`: the readers deliver the same for all orders of enumeration;
* `TiesDecided`: no two different records that are sorted together have the same timestamp.

## Main results

* `exists_front`: a record may be enumerated before all others;
* `orderIndependent_iff_tiesDecided`: when the readers do not depend on the order.
-/

namespace LearnCode

/-! ## Another order of a dictionary -/

namespace Value

/-- The entry of a dictionary may be enumerated first, with its value in another order. -/
theorem reordered_front {before after : List (String × Value)} {key : String} {v v' : Value}
    (hnested : (dict (before ++ (key, v) :: after)).Nested) (h : Reordered v v')
    (hv' : v'.Nested) :
    Reordered (dict (before ++ (key, v) :: after)) (dict ((key, v') :: (before ++ after))) ∧
      (dict ((key, v') :: (before ++ after))).Nested := by
  have hfront : (before ++ (key, v) :: after).Perm ((key, v) :: (before ++ after)) :=
    List.perm_middle
  have hkeys : ((before ++ (key, v) :: after).map Prod.fst).Perm
      (((key, v') :: (before ++ after)).map Prod.fst) := hfront.map Prod.fst
  have hnodup : ((before ++ (key, v) :: after).map Prod.fst).Nodup := hnested.nodup_keys
  have hnodup' := hkeys.nodup_iff.mp hnodup
  have hrest : ∀ e ∈ before ++ after, e ∈ before ++ (key, v) :: after := by
    intro e he
    rw [List.mem_append] at he
    rw [List.mem_append, List.mem_cons]
    tauto
  refine ⟨.dict hkeys fun k w w' hw hw' => ?_, .dict hnodup' ?_⟩
  · rw [AssocList.lookup_eq_some_iff_mem hnodup] at hw
    rcases List.mem_cons.mp ((AssocList.lookup_eq_some_iff_mem hnodup').mp hw') with heq | hmem
    · obtain ⟨rfl, rfl⟩ := Prod.mk.inj heq
      have hkey : (k, v) ∈ before ++ (k, v) :: after := by simp
      obtain ⟨-, rfl⟩ := Prod.mk.inj
        (List.inj_on_of_nodup_map hnodup hw hkey rfl)
      exact h
    · -- another entry has the same value in both
      obtain ⟨-, rfl⟩ := Prod.mk.inj
        (List.inj_on_of_nodup_map hnodup hw (hrest _ hmem) rfl)
      exact (hnested.of_mem_children hw).reordered
  · rw [List.forall_mem_cons]
    exact ⟨hv', fun e he => hnested.of_mem_children (hrest e he)⟩

end Value

namespace MessageManager

open Callback

/-- A record of a thread may be enumerated before its other records. -/
theorem exists_front_record {v : Value} (hnested : v.Nested) {m : MessageModel}
    (hm : m ∈ storedRecords v) :
    ∃ v' rest, Value.Reordered v v' ∧ v'.Nested ∧ storedRecords v' = m :: rest := by
  obtain ⟨⟨messageID, w⟩, hentry, hrecord⟩ := List.mem_flatMap.mp hm
  obtain ⟨fields, hfields, rfl⟩ := Option.map_eq_some_iff.mp (Option.mem_toList.mp hrecord)
  obtain rfl := Value.eq_dict_of_asDictionary hfields
  cases hdata : messagesData v with
  | none =>
    rw [hdata] at hentry
    cases hentry
  | some data =>
    rw [hdata, Option.getD_some] at hentry
    -- the record is in the dictionary of the messages, and this in that of the thread
    obtain ⟨thread, hthread, hmessages⟩ := Option.bind_eq_some_iff.mp hdata
    obtain ⟨u, hu, hdict⟩ := Option.bind_eq_some_iff.mp hmessages
    obtain rfl := Value.eq_dict_of_asDictionary hthread
    obtain rfl := Value.eq_dict_of_asDictionary hdict
    have hnestedData := nested_of_messagesData hnested hdata
    -- the record goes to the front of the messages, and these to the front of the thread
    obtain ⟨before, after, rfl⟩ := List.append_of_mem hentry
    obtain ⟨before', after', rfl⟩ := List.append_of_mem
      ((AssocList.lookup_eq_some_iff_mem hnested.nodup_keys).mp hu)
    have hnestedRecord := hnestedData.of_mem_children hentry
    obtain ⟨hmessages, hnestedMessages⟩ := Value.reordered_front hnestedData
      hnestedRecord.reordered hnestedRecord
    obtain ⟨hthread, hnestedThread⟩ := Value.reordered_front hnested hmessages hnestedMessages
    exact ⟨_, _, hthread, hnestedThread, rfl⟩

/-- A thread with a record may be enumerated first, with this record before its others. -/
theorem exists_front {conversations : List (String × Value)}
    (hnested : (Value.dict conversations).Nested) {thread : String × Value}
    (hthread : thread ∈ conversations) {m : MessageModel} (hm : m ∈ storedRecords thread.2) :
    ∃ v' rest conversations',
      Value.Reordered (.dict conversations) (.dict ((thread.1, v') :: conversations')) ∧
        storedRecords v' = m :: rest := by
  obtain ⟨key, v⟩ := thread
  obtain ⟨v', rest, hv, hnested', hrecords⟩ :=
    exists_front_record (hnested.of_mem_children hthread) hm
  obtain ⟨before, after, rfl⟩ := List.append_of_mem hthread
  exact ⟨v', rest, before ++ after, (Value.reordered_front hnested hv hnested').1, hrecords⟩

/-! ## The requirement -/

/-- The records that `getAllConversations` keeps for a path: those of the threads whose keys contain
it. -/
def keptRecords (conversationPath : String) (conversations : List (String × Value)) :
    List MessageModel :=
  conversations.flatMap fun thread =>
    if contains thread.1 conversationPath then storedRecords thread.2 else []

/-- Records with equal timestamps are equal. -/
def TimestampsDecide (messages : List MessageModel) : Prop :=
  ∀ m ∈ messages, ∀ m' ∈ messages, m.timestamp = m'.timestamp → m = m'

/-- In any two orders of the snapshot `getAllConversations` delivers the same list, and
`fetchLastMessages` delivers the same threads with the same lists. -/
structure OrderIndependent (user : AuthUser) (receiverId : String) (snapshot : Value) : Prop where
  conversations : ∀ snapshot₁ snapshot₂, Value.Reordered snapshot snapshot₁ →
    Value.Reordered snapshot snapshot₂ → ∀ delivered₁ delivered₂,
      Settles (getAllConversations (some user) receiverId fun messages =>
          .complete messages .done).issued
        [⟨.observeSingleEvent ["conversations"], .value snapshot₁⟩] delivered₁ →
      Settles (getAllConversations (some user) receiverId fun messages =>
          .complete messages .done).issued
        [⟨.observeSingleEvent ["conversations"], .value snapshot₂⟩] delivered₂ →
      delivered₁ = delivered₂
  lastMessages : ∀ snapshot₁ snapshot₂, Value.Reordered snapshot snapshot₁ →
    Value.Reordered snapshot snapshot₂ → ∀ delivered₁ delivered₂,
      Settles (fetchLastMessages (some user) fun lastMessages =>
          .complete lastMessages .done).issued
        [⟨.observeSingleEvent ["conversations"], .value snapshot₁⟩] delivered₁ →
      Settles (fetchLastMessages (some user) fun lastMessages =>
          .complete lastMessages .done).issued
        [⟨.observeSingleEvent ["conversations"], .value snapshot₂⟩] delivered₂ →
      List.Forall₂ (fun lastMessages₁ lastMessages₂ =>
        ∀ t, t ∈ lastMessages₁ ↔ t ∈ lastMessages₂) delivered₁ delivered₂

/-- No two different records that are sorted together have the same timestamp. -/
structure TiesDecided (user : AuthUser) (receiverId : String) (snapshot : Value) : Prop where
  kept : ∀ conversations, snapshot.asDictionary = some conversations →
    TimestampsDecide (keptRecords (threadKey user.uid receiverId) conversations)
  thread : ∀ conversations, snapshot.asDictionary = some conversations →
    ∀ thread ∈ conversations, TimestampsDecide (storedRecords thread.2)

/-! ## Sorting -/

/-- Two orders of records whose timestamps decide are sorted to the same list. -/
theorem TimestampsDecide.sortByTimestamp_eq {messages messages₁ messages₂ : List MessageModel}
    (h : TimestampsDecide messages) (h₁ : messages.Perm messages₁) (h₂ : messages.Perm messages₂) :
    sortByTimestamp messages₁ = sortByTimestamp messages₂ := by
  have hperm₁ := h₁.trans (sortByTimestamp_perm messages₁).symm
  have hperm₂ := h₂.trans (sortByTimestamp_perm messages₂).symm
  refine (hperm₁.symm.trans hperm₂).eq_of_pairwise ?_ (sortByTimestamp_pairwise _)
    (sortByTimestamp_pairwise _)
  intro m m' hm hm' hle hle'
  exact h m (hperm₁.mem_iff.mpr hm) m' (hperm₂.mem_iff.mpr hm') (le_antisymm hle hle')

/-- Lists that are sorted to the same list, and begin with records of one timestamp, begin with the
same record. -/
theorem eq_of_sortByTimestamp_eq {m m' : MessageModel} {rest rest' : List MessageModel}
    (h : sortByTimestamp (m :: rest) = sortByTimestamp (m' :: rest'))
    (htimestamp : m.timestamp = m'.timestamp) : m = m' := by
  -- the sort is stable: the records of this timestamp stand in the order of the lists
  have hties := congrArg (List.filter fun a => a.timestamp = m.timestamp) h
  rw [filter_timestamp_sortByTimestamp, filter_timestamp_sortByTimestamp,
    List.filter_cons_of_pos (by simp), List.filter_cons_of_pos (by simp [htimestamp])] at hties
  exact (List.cons.inj hties).1

/-! ## What the readers deliver -/

/-- What a reader delivers that makes a list of a dictionary: nothing for any other value, but the
empty list for a snapshot that does not exist. -/
def delivered {β : Type} (make : List (String × Value) → List β) (snapshot : Value) :
    List (List β) :=
  if snapshot.exists_ then (snapshot.asDictionary.map make).toList else [[]]

/-- The kept records in the order of their timestamps. -/
def keptMessages (conversationPath : String) (conversations : List (String × Value)) :
    List MessageModel :=
  sortByTimestamp (keptRecords conversationPath conversations)

/-- The list of `getAllConversations` is made of the kept records. -/
theorem settles_getAllConversations_iff_delivered (user : AuthUser) (receiverId : String)
    (snapshot : Value) (results : List (List MessageModel)) :
    Settles (getAllConversations (some user) receiverId fun messages =>
        .complete messages .done).issued
      [⟨.observeSingleEvent ["conversations"], .value snapshot⟩] results ↔
    results = delivered (keptMessages (threadKey user.uid receiverId)) snapshot := by
  have hkept : keptMessages (threadKey user.uid receiverId) = fun conversations =>
      sortByTimestamp (collectMessages (threadKey user.uid receiverId) conversations []) := by
    funext conversations
    rw [collectMessages_eq, List.nil_append, keptMessages, keptRecords]
  rw [settles_getAllConversationsOnValue_iff, hkept]
  cases snapshot <;> rfl

/-- The list of `fetchLastMessages` is made by its loop. -/
theorem settles_fetchLastMessages_iff_delivered (user : AuthUser) (snapshot : Value)
    (results : List (List SenderMessages)) :
    Settles (fetchLastMessages (some user) fun lastMessages =>
        .complete lastMessages .done).issued
      [⟨.observeSingleEvent ["conversations"], .value snapshot⟩] results ↔
    results = delivered fetchLastMessagesLoop snapshot := by
  rw [fetchLastMessages, Prog.issued_issue, Prog.issued_done]
  refine (settles_reply_iff ?_).trans (Iff.of_eq (congrArg _ ?_))
  · cases snapshot <;> rfl
  · cases snapshot <;> rfl

/-- What is delivered for two orders of a snapshot is related if the lists made of dictionaries
are. -/
theorem forall₂_delivered {β : Type} {make : List (String × Value) → List β}
    {R : List β → List β → Prop} (hnil : R [] []) {snapshot snapshot₁ snapshot₂ : Value}
    (h₁ : Value.Reordered snapshot snapshot₁) (h₂ : Value.Reordered snapshot snapshot₂)
    (hdict : ∀ conversations₁ conversations₂, snapshot₁ = .dict conversations₁ →
      snapshot₂ = .dict conversations₂ → R (make conversations₁) (make conversations₂)) :
    List.Forall₂ R (delivered make snapshot₁) (delivered make snapshot₂) := by
  cases h₁ with
  | null =>
    cases h₂ with
    | null => exact .cons hnil .nil
  | scalar s =>
    cases h₂ with
    | scalar _ => exact .nil
  | array _ _ =>
    cases h₂ with
    | array _ _ => exact .nil
  | dict _ _ =>
    cases h₂ with
    | dict _ _ => exact .cons (hdict _ _ rfl rfl) .nil

/-- The kept records do not depend on the order of enumeration, up to their order. -/
theorem keptRecords_perm_of_reordered (conversationPath : String)
    {conversations conversations' : List (String × Value)}
    (hnested : (Value.dict conversations).Nested)
    (h : Value.Reordered (.dict conversations) (.dict conversations')) :
    (keptRecords conversationPath conversations).Perm
      (keptRecords conversationPath conversations') := by
  have hperm := collectMessages_perm_of_reordered conversationPath hnested h
  rwa [collectMessages_eq, collectMessages_eq, List.nil_append, List.nil_append] at hperm

/-- If a record of a kept thread is enumerated first, it is the first kept record. -/
theorem exists_keptRecords_eq_of_front {key : String} {v : Value}
    (conversations : List (String × Value)) {m : MessageModel} {rest : List MessageModel}
    (hrecords : storedRecords v = m :: rest) {conversationPath : String}
    (hkept : contains key conversationPath = true) :
    ∃ others, keptRecords conversationPath ((key, v) :: conversations) = m :: others := by
  simp [keptRecords, hkept, hrecords]

/-- If a record is enumerated first, its thread is delivered as the sorted list of this record and
the others. -/
theorem mem_fetchLastMessagesLoop_of_front {key : String} {v : Value}
    {conversations : List (String × Value)}
    (hnodup : (((key, v) :: conversations).map Prod.fst).Nodup) {m : MessageModel}
    {rest : List MessageModel} (hrecords : storedRecords v = m :: rest) :
    ⟨key, sortByTimestamp (m :: rest)⟩ ∈ fetchLastMessagesLoop ((key, v) :: conversations) := by
  refine (mem_fetchLastMessagesLoop_iff hnodup _).mpr ⟨v, List.mem_cons_self, ?_, ?_⟩
  · intro hnone
    simp [storedRecords, hnone] at hrecords
  · rw [hrecords]

/-- A thread has a dictionary of messages in all orders or in none. -/
theorem messagesData_eq_none_iff_of_reordered {v v' : Value} (h : Value.Reordered v v') :
    messagesData v = none ↔ messagesData v' = none := by
  rcases messagesData_cases_of_reordered h with ⟨hnone, hnone'⟩ | ⟨_, _, hdata, hdata', -⟩
  · rw [hnone, hnone']
  · simp [hdata, hdata']

section Orders

variable {conversations conversations₁ conversations₂ : List (String × Value)}

/-- The thread of an order of the dictionary, and the same thread in another order. -/
theorem exists_threads_of_reordered (hnodup : (conversations.map Prod.fst).Nodup)
    (h₁ : Value.Reordered (.dict conversations) (.dict conversations₁))
    (h₂ : Value.Reordered (.dict conversations) (.dict conversations₂)) {key : String}
    {v₁ : Value} (hmem : (key, v₁) ∈ conversations₁) :
    ∃ v v₂, (key, v) ∈ conversations ∧ (key, v₂) ∈ conversations₂ ∧
      Value.Reordered v v₁ ∧ Value.Reordered v v₂ := by
  have hlookup := (AssocList.lookup_eq_some_iff_mem (h₁.nodup_keys hnodup)).mpr hmem
  rcases h₁.lookup_cases key with ⟨-, hnone⟩ | ⟨v, w₁, hv, hw₁, hr₁⟩
  · rw [hlookup] at hnone
    cases hnone
  · rcases h₂.lookup_cases key with ⟨hnone, -⟩ | ⟨v', v₂, hv', hv₂, hr₂⟩
    · rw [hv] at hnone
      cases hnone
    · obtain rfl : v₁ = w₁ := Option.some.inj (hlookup.symm.trans hw₁)
      obtain rfl : v = v' := Option.some.inj (hv.symm.trans hv')
      exact ⟨v, v₂, (AssocList.lookup_eq_some_iff_mem hnodup).mp hv,
        (AssocList.lookup_eq_some_iff_mem (h₂.nodup_keys hnodup)).mp hv₂, hr₁, hr₂⟩

/-- Where the timestamps decide the order in each thread, an entry that is delivered for one order
of the dictionary is delivered for every other. -/
theorem mem_fetchLastMessagesLoop_of_reordered (hnested : (Value.dict conversations).Nested)
    (hdecide : ∀ thread ∈ conversations, TimestampsDecide (storedRecords thread.2))
    (h₁ : Value.Reordered (.dict conversations) (.dict conversations₁))
    (h₂ : Value.Reordered (.dict conversations) (.dict conversations₂)) {t : SenderMessages}
    (ht : t ∈ fetchLastMessagesLoop conversations₁) :
    t ∈ fetchLastMessagesLoop conversations₂ := by
  have hnodup : (conversations.map Prod.fst).Nodup := hnested.nodup_keys
  rw [mem_fetchLastMessagesLoop_iff (h₁.nodup_keys hnodup)] at ht
  rw [mem_fetchLastMessagesLoop_iff (h₂.nodup_keys hnodup)]
  obtain ⟨v₁, hmem₁, hdata, hmessages⟩ := ht
  -- the same thread is there in the other order
  obtain ⟨v, v₂, hmem, hmem₂, hr₁, hr₂⟩ := exists_threads_of_reordered hnodup h₁ h₂ hmem₁
  have hthread : v.Nested := hnested.of_mem_children hmem
  refine ⟨v₂, hmem₂, ?_, ?_⟩
  · rwa [Ne, ← messagesData_eq_none_iff_of_reordered hr₂,
      messagesData_eq_none_iff_of_reordered hr₁]
  · rw [hmessages]
    exact (hdecide _ hmem).sortByTimestamp_eq (storedRecords_perm_of_reordered hthread hr₁)
      (storedRecords_perm_of_reordered hthread hr₂)

end Orders

/-! ## When the order does not matter -/

/-- The list of `getAllConversations` begins with either of two kept records of one timestamp, in
some order. -/
theorem OrderIndependent.kept {user : AuthUser} {receiverId : String}
    {conversations : List (String × Value)} (hnested : (Value.dict conversations).Nested)
    (h : OrderIndependent user receiverId (.dict conversations)) :
    TimestampsDecide (keptRecords (threadKey user.uid receiverId) conversations) := by
  have hthread {m : MessageModel}
      (hm : m ∈ keptRecords (threadKey user.uid receiverId) conversations) :
      ∃ thread ∈ conversations, contains thread.1 (threadKey user.uid receiverId) = true ∧
        m ∈ storedRecords thread.2 := by
    obtain ⟨thread, hthread, hm⟩ := List.mem_flatMap.mp hm
    split_ifs at hm with hkept
    · exact ⟨thread, hthread, hkept, hm⟩
    · cases hm
  intro m hm m' hm' htimestamp
  obtain ⟨thread, hmem, hkept, hm⟩ := hthread hm
  obtain ⟨thread', hmem', hkept', hm'⟩ := hthread hm'
  -- the two orders in which one or the other record comes first
  obtain ⟨v₁, rest₁, conversations₁, h₁, hrecords₁⟩ := exists_front hnested hmem hm
  obtain ⟨v₂, rest₂, conversations₂, h₂, hrecords₂⟩ := exists_front hnested hmem' hm'
  have hsame := (List.cons.inj (h.conversations _ _ h₁ h₂ _ _
    ((settles_getAllConversations_iff_delivered user receiverId _ _).mpr rfl)
    ((settles_getAllConversations_iff_delivered user receiverId _ _).mpr rfl))).1
  obtain ⟨others₁, heq₁⟩ := exists_keptRecords_eq_of_front conversations₁ hrecords₁ hkept
  obtain ⟨others₂, heq₂⟩ := exists_keptRecords_eq_of_front conversations₂ hrecords₂ hkept'
  rw [keptMessages, keptMessages, heq₁, heq₂] at hsame
  exact eq_of_sortByTimestamp_eq hsame htimestamp

/-- The entry of a thread is made with either of two records of one timestamp enumerated first. -/
theorem OrderIndependent.thread {user : AuthUser} {receiverId : String}
    {conversations : List (String × Value)} (hnested : (Value.dict conversations).Nested)
    (h : OrderIndependent user receiverId (.dict conversations)) :
    ∀ thread ∈ conversations, TimestampsDecide (storedRecords thread.2) := by
  intro thread hthread m hm m' hm' htimestamp
  obtain ⟨v₁, rest₁, conversations₁, h₁, hrecords₁⟩ := exists_front hnested hthread hm
  obtain ⟨v₂, rest₂, conversations₂, h₂, hrecords₂⟩ := exists_front hnested hthread hm'
  have hnodup₁ := h₁.nodup_keys hnested.nodup_keys
  have hnodup₂ := h₂.nodup_keys hnested.nodup_keys
  obtain ⟨hiff, -⟩ := List.forall₂_cons.mp (h.lastMessages _ _ h₁ h₂ _ _
    ((settles_fetchLastMessages_iff_delivered user _ _).mpr rfl)
    ((settles_fetchLastMessages_iff_delivered user _ _).mpr rfl))
  have hentry := (hiff _).mp (mem_fetchLastMessagesLoop_of_front hnodup₁ hrecords₁)
  -- the second order has one entry with this key
  have hentry' := mem_fetchLastMessagesLoop_of_front hnodup₂ hrecords₂
  have hkeys := (deliversThreads_fetchLastMessagesLoop hnodup₂).nodup
  -- so the two entries of the thread are one
  have hsame := List.inj_on_of_nodup_map hkeys hentry hentry' rfl
  exact eq_of_sortByTimestamp_eq (congrArg SenderMessages.messages hsame) htimestamp

/-- Where ties are decided `getAllConversations` delivers one list for all orders. -/
theorem TiesDecided.conversations {user : AuthUser} {receiverId : String} {snapshot : Value}
    (hnested : snapshot.Nested) (h : TiesDecided user receiverId snapshot)
    {snapshot₁ snapshot₂ : Value} (h₁ : Value.Reordered snapshot snapshot₁)
    (h₂ : Value.Reordered snapshot snapshot₂) :
    delivered (keptMessages (threadKey user.uid receiverId)) snapshot₁ =
      delivered (keptMessages (threadKey user.uid receiverId)) snapshot₂ := by
  rw [← List.forall₂_eq_eq_eq]
  refine forall₂_delivered rfl h₁ h₂ ?_
  rintro conversations₁ conversations₂ rfl rfl
  cases h₁ with
  | dict hkeys₁ hvalues₁ =>
    -- both lists are sorted from permutations of the kept records
    exact (h.kept _ rfl).sortByTimestamp_eq
      (keptRecords_perm_of_reordered _ hnested (.dict hkeys₁ hvalues₁))
      (keptRecords_perm_of_reordered _ hnested h₂)

/-- Where ties are decided `fetchLastMessages` delivers the same threads for all orders. -/
theorem TiesDecided.lastMessages {user : AuthUser} {receiverId : String} {snapshot : Value}
    (hnested : snapshot.Nested) (h : TiesDecided user receiverId snapshot)
    {snapshot₁ snapshot₂ : Value} (h₁ : Value.Reordered snapshot snapshot₁)
    (h₂ : Value.Reordered snapshot snapshot₂) :
    List.Forall₂ (fun lastMessages₁ lastMessages₂ => ∀ t, t ∈ lastMessages₁ ↔ t ∈ lastMessages₂)
      (delivered fetchLastMessagesLoop snapshot₁) (delivered fetchLastMessagesLoop snapshot₂) := by
  refine forall₂_delivered (fun _ => .rfl) h₁ h₂ ?_
  rintro conversations₁ conversations₂ rfl rfl t
  cases h₁ with
  | dict hkeys₁ hvalues₁ =>
    have h₁ := Value.Reordered.dict hkeys₁ hvalues₁
    exact ⟨mem_fetchLastMessagesLoop_of_reordered hnested (h.thread _ rfl) h₁ h₂,
      mem_fetchLastMessagesLoop_of_reordered hnested (h.thread _ rfl) h₂ h₁⟩

/-- The readers deliver the same for all orders of enumeration if and only if no two different
records that are sorted together have the same timestamp. -/
theorem orderIndependent_iff_tiesDecided (user : AuthUser) (receiverId : String) {snapshot : Value}
    (hnested : snapshot.Nested) :
    OrderIndependent user receiverId snapshot ↔ TiesDecided user receiverId snapshot := by
  constructor
  · -- a pair of orders that swaps two records shows that their timestamps differ
    intro h
    constructor
    case kept =>
      intro conversations hdict
      obtain rfl := Value.eq_dict_of_asDictionary hdict
      exact h.kept hnested
    case thread =>
      intro conversations hdict
      obtain rfl := Value.eq_dict_of_asDictionary hdict
      exact h.thread hnested
  · intro h
    constructor
    case conversations =>
      intro snapshot₁ snapshot₂ h₁ h₂ delivered₁ delivered₂ hread₁ hread₂
      rw [settles_getAllConversations_iff_delivered] at hread₁ hread₂
      rw [hread₁, hread₂]
      exact h.conversations hnested h₁ h₂
    case lastMessages =>
      intro snapshot₁ snapshot₂ h₁ h₂ delivered₁ delivered₂ hread₁ hread₂
      rw [settles_fetchLastMessages_iff_delivered] at hread₁ hread₂
      rw [hread₁, hread₂]
      exact h.lastMessages hnested h₁ h₂

/-- Two records with different timestamps. -/
theorem timestampsDecide_pair {m n : MessageModel} (h : m.timestamp ≠ n.timestamp) :
    TimestampsDecide [m, n] := by
  intro a ha b hb htimestamp
  simp only [List.mem_cons, List.not_mem_nil, or_false] at ha hb
  rcases ha with rfl | rfl
  · rcases hb with rfl | rfl
    · rfl
    · exact absurd htimestamp h
  · rcases hb with rfl | rfl
    · exact absurd htimestamp.symm h
    · rfl

/-- A thread of `a` and `b` with two messages, by their records. -/
def twoRecords (first second : List (String × Value)) : Value :=
  .dict [("a_b", .dict [("messages", .dict [("m", .dict first), ("n", .dict second)])])]

/-- The two messages have different keys. -/
theorem nested_twoRecords {first second : List (String × Value)}
    (hfirst : (Value.dict first).Nested) (hsecond : (Value.dict second).Nested) :
    (twoRecords first second).Nested := by
  have hmessages : (Value.dict [("m", .dict first), ("n", .dict second)]).Nested :=
    .dict (by simp) (by simp [hfirst, hsecond])
  exact ConversationsNode.nested_oneThread "a_b" hmessages

/-- Messages with two timestamps are shown in one order. -/
theorem orderIndependent_iff_tiesDecided_timestamps :
    OrderIndependent ⟨"a", none⟩ "b"
      (twoRecords [("timestamp", .double 1)] [("timestamp", .double 2)]) := by
  have hnested (q : ℚ) : (Value.dict [("timestamp", .double q)]).Nested :=
    .dict (by simp) (by simp [Value.Nested.scalar])
  refine (orderIndependent_iff_tiesDecided ⟨"a", none⟩ "b"
    (nested_twoRecords (hnested 1) (hnested 2))).mpr ⟨?_, ?_⟩
  · rintro _ ⟨⟩
    have hkept : contains "a_b" (threadKey "a" "b") = true := by decide
    rw [keptRecords, List.flatMap_singleton, if_pos hkept]
    exact timestampsDecide_pair (by decide)
  · rintro _ ⟨⟩
    exact List.forall_mem_singleton.mpr (timestampsDecide_pair (by decide))

/-- Two messages without a timestamp are shown in the order in which they are enumerated. -/
theorem not_orderIndependent_tiedMessages :
    ¬OrderIndependent ⟨"a", none⟩ "b"
      (twoRecords [("content", .string "one")] [("content", .string "two")]) := by
  intro h
  have hnested (s : String) : (Value.dict [("content", .string s)]).Nested :=
    .dict (by simp) (by simp [Value.Nested.scalar])
  have hdecide := h.thread (nested_twoRecords (hnested "one") (hnested "two")) _
    (List.mem_singleton.mpr rfl)
  have hsame : messageModel "m" [("content", .string "one")] =
      messageModel "n" [("content", .string "two")] :=
    hdecide _ (List.mem_of_getElem? (i := 0) rfl) _ (List.mem_of_getElem? (i := 1) rfl) rfl
  exact absurd (congrArg MessageModel.content hsame) (by decide)

end MessageManager

end LearnCode
