import LearnCode.APIManager.CallbackProtocol
import LearnCode.Library.Transition
import LearnCode.Messages.Concurrency

/-!
# Selecting and deleting messages

A long press on the table of `ConversationViewController` marks the pressed cell, if it is a
`SenderUserCell`, and adds an id to `deletedMessageIds`. The mark stays on the cell when the
table reuses it for another row, and the ids stay in the list when they have been deleted. The
marked rows are the selected ones, and a deletion removes exactly them, in the runs without a
press, a reuse or a deletion that tells the two apart.

## Main definitions

* `Screen` and `Action`: the array behind the table, the visible rows with their cells, the
  cells that wait for reuse and the selected ids, with what can happen next;
* `machine`: the table as a state machine;
* `requested`: what a press of the delete button asks for;
* `Faithful`: what is marked is what is selected and deleted, step by step;
* `Matching`: the condition on presses, cells and deletions.

## Main results

* `silent_deleteConversations` and `requested_eq_map`: the closure of a deletion is never called,
  and one removal is asked for each selected id;
* `agree_select_iff`: what a long press does to the marks;
* `faithful_iff_matching`: the steps of a run are faithful exactly when all of them match.
-/

namespace LearnCode.MessageSelection

open Transition DatabaseManager MessageManager

/-- A cell of the table. -/
inductive Cell : Type where
  /-- A `SenderUserCell`, with whether `imgSelection` shows an image. -/
  | senderUserCell (imgSelection : Bool)
  /-- A `ReceiverUserCell`, which has no such view. -/
  | receiverUserCell
  /-- A plain `UITableViewCell`. -/
  | blank
deriving DecidableEq

namespace Cell

/-- The cell shows the selection mark. -/
def isMarked : Cell → Bool
  | senderUserCell imgSelection => imgSelection
  | receiverUserCell => false
  | blank => false

/-- The cell is a `SenderUserCell`. -/
def isSender : Cell → Bool
  | senderUserCell _ => true
  | receiverUserCell => false
  | blank => false

/-- `cell?.imgSelection` gets its image and is shown. -/
def select : Cell → Cell
  | senderUserCell _ => senderUserCell true
  | receiverUserCell => receiverUserCell
  | blank => blank

theorem isMarked_select (cell : Cell) :
    cell.select.isMarked = (cell.isSender || cell.isMarked) := by
  cases cell <;> rfl

end Cell

/-- A visible row, with the message its cell was configured for. -/
structure Row where
  /-- The index of the row. -/
  index : ℕ
  /-- The message that is shown. -/
  message : MessageModel
  /-- The cell. -/
  cell : Cell

/-- The table of the screen. -/
structure Screen where
  /-- `conversationData`. -/
  conversationData : List MessageModel
  /-- The visible rows. -/
  visibleRows : List Row
  /-- The `SenderUserCell`s that wait for reuse, each by its `imgSelection`. -/
  reusePool : List Bool
  /-- `deletedMessageIds`. -/
  deletedMessageIds : List String
  /-- `deleteBtn.isHidden`. -/
  deleteBtnIsHidden : Bool
  /-- History: the ids of the messages marked since the last deletion. -/
  marked : List String

/-- What happens next to the table. -/
inductive Action : Type where
  /-- The array gets another content. -/
  | setConversationData (conversationData : List MessageModel)
  /-- `conversationTableView.reloadData`. -/
  | reloadData
  /-- A row becomes visible: `tableView(_:cellForRowAt:)`. The cell is the given one of those
  that wait for reuse, or a new one. -/
  | cellForRowAt (row : ℕ) (reused : Option ℕ)
  /-- A row is no longer visible. -/
  | didEndDisplaying (position : ℕ)
  /-- `messageTapRecognizer`, with the visible row under the finger. -/
  | messageTapRecognizer (position : Option ℕ)
  /-- `deleteConversationsAction`. -/
  | deleteConversationsAction

/-- The marks of cells that go back to the reuse pool. -/
def recycled (rows : List Row) : List Bool :=
  rows.filterMap fun row =>
    match row.cell with
    | .senderUserCell imgSelection => some imgSelection
    | _ => none

/-- The cell for a message and the pool after it has been taken. Neither `configureSenderCell`
nor `configureReceiverCell` touches `imgSelection`. -/
def dequeue (currentUser : Option AuthUser) (messageData : MessageModel) (reused : Option ℕ)
    (reusePool : List Bool) : Option (Cell × List Bool) :=
  match currentUser with
  | none => some (.blank, reusePool)
  | some user =>
    if user.uid = messageData.senderId then
      match reused with
      | none => some (.senderUserCell false, reusePool)
      | some position =>
        match reusePool[position]? with
        | none => none
        | some imgSelection =>
          some (.senderUserCell imgSelection, reusePool.eraseIdx position)
    else some (.receiverUserCell, reusePool)

/-- The screen after a long press on a row, where the array holds `message`. -/
def selectRow (s : Screen) (position : ℕ) (row : Row) (message : MessageModel) : Screen :=
  { s with
    visibleRows := s.visibleRows.set position { row with cell := row.cell.select }
    deletedMessageIds := s.deletedMessageIds ++ [message.messageID]
    deleteBtnIsHidden := false
    marked := if row.cell.isSender then s.marked ++ [row.message.messageID] else s.marked }

/-- `deleteConversationsAction`. Its closure reloads the table. -/
def deleteConversations (currentUser : Option AuthUser) (userData : UserResponse)
    (deletedMessageIds : List String) : Prog Unit :=
  match userData.userId with
  | none => .done
  | some receiverId =>
    let currentUserId := currentUserId currentUser
    deleteUserConversations (threadKey currentUserId receiverId) deletedMessageIds currentUserId
      receiverId fun _ => .complete () .done

/-- What a press of the delete button asks for. -/
def requested (currentUser : Option AuthUser) (userData : UserResponse)
    (s : Screen) : List Request :=
  (deleteConversations currentUser userData s.deletedMessageIds).issued.map Sigma.fst

/-- The screen after an action, if it is possible. An index out of range is an exception. -/
def next (currentUser : Option AuthUser) (s : Screen) : Action → Option Screen
  | .setConversationData conversationData => some { s with conversationData := conversationData }
  | .reloadData =>
    some { s with visibleRows := [], reusePool := s.reusePool ++ recycled s.visibleRows }
  | .cellForRowAt index reused =>
    match s.conversationData[index]? with
    | none => none
    | some messageData =>
      match dequeue currentUser messageData reused s.reusePool with
      | none => none
      | some (cell, reusePool) =>
        some { s with
          visibleRows := s.visibleRows ++ [⟨index, messageData, cell⟩]
          reusePool := reusePool }
  | .didEndDisplaying position =>
    match s.visibleRows[position]? with
    | none => none
    | some row =>
      some { s with
        visibleRows := s.visibleRows.eraseIdx position
        reusePool := s.reusePool ++ recycled [row] }
  | .messageTapRecognizer none => some { s with deleteBtnIsHidden := false }
  | .messageTapRecognizer (some position) =>
    match s.visibleRows[position]? with
    | none => none
    | some row =>
      match s.conversationData[row.index]? with
      | none => none
      | some message => some (selectRow s position row message)
  | .deleteConversationsAction =>
    -- the manager never calls the closure, and the list is not emptied
    if s.deleteBtnIsHidden then none else some { s with marked := [] }

/-- The screen as it is opened: the table is empty and the delete button is hidden. -/
def opened : Screen where
  conversationData := []
  visibleRows := []
  reusePool := []
  deletedMessageIds := []
  deleteBtnIsHidden := true
  marked := []

/-- The table of a chat screen, from its opening on. -/
def machine (currentUser : Option AuthUser) : Machine Screen Action where
  init s := s = opened
  next := next currentUser

/-! ## The requirement -/

/-- The marked rows are the visible rows whose ids are selected. -/
def Agree (s : Screen) : Prop :=
  ∀ row ∈ s.visibleRows,
    (row.cell.isMarked = true ↔ row.message.messageID ∈ s.deletedMessageIds)

/-- A deletion asks for the removal of the messages marked since the last one, under the thread
of the screen, and leaves nothing selected. -/
structure DeletesMarked (currentUser : Option AuthUser) (userData : UserResponse)
    (before after : Screen) : Prop where
  /-- What is asked for is the removal of the marked messages. -/
  requested : ∀ q, q ∈ requested currentUser userData before ↔
    ∃ id ∈ before.marked,
      q = .removeValue (messagePath
        (threadKey (currentUserId currentUser) (userData.userId.getD "")) id)
  /-- No id is selected. -/
  unselected : after.deletedMessageIds = []
  /-- No row is marked. -/
  unmarked : ∀ row ∈ after.visibleRows, row.cell.isMarked = false

/-- After the step the marked rows are the selected ones, and a deletion removes what was
marked. -/
structure Faithful (currentUser : Option AuthUser) (userData : UserResponse)
    (st : Step Screen Action) : Prop where
  agree : Agree st.post
  deletes : st.action = .deleteConversationsAction →
    DeletesMarked currentUser userData st.pre st.post

/-! ## The condition -/

/-- The id that a long press selects is shown: the pressed row is marked already or shows its
message; and every row that shows its message is marked already or is the pressed row, in a
`SenderUserCell`. -/
structure SelectsShown (s : Screen) (position : ℕ) (row : Row) (message : MessageModel) :
    Prop where
  /-- The row that gets the mark shows the message, unless it has a mark. -/
  pressed : row.cell.isSender = true →
    row.cell.isMarked = true ∨ row.message.messageID = message.messageID
  /-- Every row that shows the message has the mark, or gets it. -/
  shown : ∀ position' row', s.visibleRows[position']? = some row' →
    row'.message.messageID = message.messageID →
    row'.cell.isMarked = true ∨ position' = position ∧ row'.cell.isSender = true

/-- The cell that is taken for a row is marked exactly if the row's message is selected; a long
press selects what it marks; and the delete button is pressed only when nothing is selected. -/
def Matching (currentUser : Option AuthUser) (s : Screen) : Action → Prop
  | .cellForRowAt index reused => ∀ messageData cell reusePool,
    s.conversationData[index]? = some messageData →
    dequeue currentUser messageData reused s.reusePool = some (cell, reusePool) →
    (cell.isMarked = true ↔ messageData.messageID ∈ s.deletedMessageIds)
  | .messageTapRecognizer (some position) => ∀ row message,
    s.visibleRows[position]? = some row → s.conversationData[row.index]? = some message →
    SelectsShown s position row message
  | .deleteConversationsAction => s.deletedMessageIds = []
  | _ => True

/-! ## What a step does -/

variable {currentUser : Option AuthUser} {userData : UserResponse} {s s' : Screen}

/-- What a step does to the table: the array is replaced; rows leave; a row is configured; a row is
pressed, or no row; or the delete button is pressed. -/
inductive Performs (currentUser : Option AuthUser) (s : Screen) : Action → Screen → Prop
  | setConversationData (conversationData : List MessageModel) :
      Performs currentUser s (.setConversationData conversationData)
        { s with conversationData := conversationData }
  | reloadData :
      Performs currentUser s .reloadData
        { s with visibleRows := [], reusePool := s.reusePool ++ recycled s.visibleRows }
  | cellForRowAt {index : ℕ} {reused : Option ℕ} {messageData : MessageModel} {cell : Cell}
      {reusePool : List Bool} : s.conversationData[index]? = some messageData →
      dequeue currentUser messageData reused s.reusePool = some (cell, reusePool) →
      Performs currentUser s (.cellForRowAt index reused) { s with
        visibleRows := s.visibleRows ++ [⟨index, messageData, cell⟩]
        reusePool := reusePool }
  | didEndDisplaying {position : ℕ} (row : Row) :
      Performs currentUser s (.didEndDisplaying position) { s with
        visibleRows := s.visibleRows.eraseIdx position
        reusePool := s.reusePool ++ recycled [row] }
  | pressNothing :
      Performs currentUser s (.messageTapRecognizer none) { s with deleteBtnIsHidden := false }
  | pressRow {position : ℕ} {row : Row} {message : MessageModel} :
      s.visibleRows[position]? = some row → s.conversationData[row.index]? = some message →
      Performs currentUser s (.messageTapRecognizer (some position))
        (selectRow s position row message)
  | deleteConversationsAction :
      Performs currentUser s .deleteConversationsAction { s with marked := [] }

/-- Each step does one of these. -/
theorem performs_of_next {a : Action} (hnext : next currentUser s a = some s') :
    Performs currentUser s a s' := by
  -- each guard that fails leaves no next state, and what remains is the step
  cases a with
  | setConversationData conversationData =>
    obtain rfl := Option.some.inj hnext
    exact .setConversationData conversationData
  | reloadData =>
    obtain rfl := Option.some.inj hnext
    exact .reloadData
  | cellForRowAt index reused =>
    simp only [next] at hnext
    split at hnext
    · cases hnext
    · rename_i messageData hdata
      split at hnext
      · cases hnext
      · rename_i cell reusePool hcell
        obtain rfl := Option.some.inj hnext
        exact .cellForRowAt hdata hcell
  | didEndDisplaying position =>
    simp only [next] at hnext
    split at hnext
    · cases hnext
    · rename_i row _
      obtain rfl := Option.some.inj hnext
      exact .didEndDisplaying row
  | messageTapRecognizer position =>
    cases position with
    | none =>
      obtain rfl := Option.some.inj hnext
      exact .pressNothing
    | some position =>
      simp only [next] at hnext
      split at hnext
      · cases hnext
      · rename_i row hrow
        split at hnext
        · cases hnext
        · rename_i message hmessage
          obtain rfl := Option.some.inj hnext
          exact .pressRow hrow hmessage
  | deleteConversationsAction =>
    simp only [next] at hnext
    split_ifs at hnext
    obtain rfl := Option.some.inj hnext
    exact .deleteConversationsAction

/-! ## The deletion -/

/-- The closure of a deletion is never called, by the call or by what it leaves pending. -/
theorem silent_deleteConversations (currentUser : Option AuthUser) (userData : UserResponse)
    (deletedMessageIds : List String) :
    (deleteConversations currentUser userData deletedMessageIds).completed = [] ∧
    ∀ p ∈ (deleteConversations currentUser userData deletedMessageIds).issued, ∀ r,
      (p.2 r).issued = [] ∧ (p.2 r).completed = [] := by
  unfold deleteConversations
  split
  · exact ⟨rfl, by simp⟩
  · exact silent_of_mem_issued_delete _ deletedMessageIds _ _ _

/-- With nothing selected nothing is asked for. -/
theorem requested_eq_nil (h : s.deletedMessageIds = []) :
    requested currentUser userData s = [] := by
  unfold requested deleteConversations
  rw [h]
  cases userData.userId <;> rfl

/-- A deletion asks for one removal for each selected id, under the thread of the screen. -/
theorem requested_eq_map {user : AuthUser} {receiverId : String} {ids : List Key}
    (hreceiver : userData.userId = some receiverId)
    (huser : isValidKey user.uid = true) (hvalid : isValidKey receiverId = true)
    (hids : s.deletedMessageIds = ids.map Key.id) :
    requested (some user) userData s = s.deletedMessageIds.map fun id =>
      .removeValue (messagePath (threadKey user.uid receiverId) id) := by
  have hissued := issued_deleteUserConversations (ρ := Unit)
    ⟨threadKey user.uid receiverId, isValidKey_threadKey huser hvalid⟩ ids user.uid receiverId
    fun _ => .complete () .done
  rw [requested, deleteConversations, hreceiver, hids]
  simp only [currentUserId]
  rw [hissued, List.map_map, List.map_map]
  rfl

/-! ## What every matching run keeps -/

/-- The marked rows are the selected ones, and what was marked is selected. -/
structure Coherent (s : Screen) : Prop where
  agree : Agree s
  selected : ∀ id ∈ s.marked, id ∈ s.deletedMessageIds

/-- The rows of a table may leave. -/
theorem Agree.of_subset (h : Agree s) {visibleRows : List Row} {reusePool : List Bool}
    (hsubset : visibleRows ⊆ s.visibleRows) :
    Agree { s with visibleRows := visibleRows, reusePool := reusePool } :=
  fun row hrow => h row (hsubset hrow)

/-- A new row agrees with the selection exactly if its cell does. -/
theorem agree_append_iff (h : Agree s) {row : Row} {reusePool : List Bool} :
    Agree { s with visibleRows := s.visibleRows ++ [row], reusePool := reusePool } ↔
      (row.cell.isMarked = true ↔ row.message.messageID ∈ s.deletedMessageIds) := by
  unfold Agree
  rw [List.forall_mem_append, List.forall_mem_singleton]
  exact and_iff_right h

/-- The rows after a long press. -/
theorem getElem?_selectRow {position : ℕ} (hlt : position < s.visibleRows.length) (row : Row)
    (message : MessageModel) (position' : ℕ) :
    (selectRow s position row message).visibleRows[position']? =
      if position = position' then some { row with cell := row.cell.select }
      else s.visibleRows[position']? := by
  rw [selectRow, List.getElem?_set, if_pos hlt]

/-- If the marked rows are the selected ones after a long press, the press selects what it
marks. -/
theorem selectsShown_of_agree (h : Agree s) {position : ℕ} {row : Row} {message : MessageModel}
    (hrow : s.visibleRows[position]? = some row)
    (hafter : Agree (selectRow s position row message)) : SelectsShown s position row message := by
  have hset := getElem?_selectRow (List.getElem?_eq_some_iff.mp hrow).1 row message
  have hafter' {position' : ℕ} {row' : Row}
      (hrow' : (selectRow s position row message).visibleRows[position']? = some row') :
      row'.cell.isMarked = true ↔
        row'.message.messageID ∈ s.deletedMessageIds ++ [message.messageID] :=
    hafter row' (List.mem_of_getElem? hrow')
  have hpressed := hafter' ((hset position).trans (if_pos rfl))
  rw [Cell.isMarked_select] at hpressed
  constructor
  case pressed =>
    intro hsender
    rcases List.mem_append.mp (hpressed.mp (by simp [hsender])) with hid | hid
    · exact .inl ((h row (List.mem_of_getElem? hrow)).mpr hid)
    · exact .inr (List.mem_singleton.mp hid)
  case shown =>
    intro position' row' hrow' hid
    by_cases hposition : position = position'
    · -- the pressed row has the mark, or got it
      subst hposition
      obtain rfl : row = row' := Option.some.inj (hrow.symm.trans hrow')
      have hmarked := hpressed.mpr (by simp [hid])
      rw [Bool.or_eq_true] at hmarked
      exact hmarked.symm.imp_right fun hsender => ⟨rfl, hsender⟩
    · -- any other row is as it was
      refine .inl ((hafter' ((hset position').trans ?_)).mpr (by simp [hid]))
      rw [if_neg hposition, hrow']

/-- If a long press selects what it marks, the marked rows are the selected ones after it. -/
theorem SelectsShown.agree (h : Agree s) {position : ℕ} {row : Row} {message : MessageModel}
    (hrow : s.visibleRows[position]? = some row) (hselects : SelectsShown s position row message) :
    Agree (selectRow s position row message) := by
  intro row' hrow'
  obtain ⟨position', hget⟩ := List.mem_iff_getElem?.mp hrow'
  rw [getElem?_selectRow (List.getElem?_eq_some_iff.mp hrow).1] at hget
  change _ ↔ _ ∈ s.deletedMessageIds ++ [message.messageID]
  rw [List.mem_append, List.mem_singleton]
  split_ifs at hget with hposition
  · -- the pressed row
    subst hposition
    obtain rfl := Option.some.inj hget
    have hagree := h row (List.mem_of_getElem? hrow)
    rw [Cell.isMarked_select, Bool.or_eq_true, or_comm]
    constructor
    · rintro (hmarked | hsender)
      · exact .inl (hagree.mp hmarked)
      · exact (hselects.pressed hsender).imp_left hagree.mp
    · rintro (hid | hid)
      · exact .inl (hagree.mpr hid)
      · exact (hselects.shown position row hrow hid).imp_right And.right
  · -- another row
    have hagree := h row' (List.mem_of_getElem? hget)
    rw [hagree, iff_self_or]
    intro hid
    rcases hselects.shown position' row' hget hid with hmarked | ⟨heq, -⟩
    · exact hagree.mp hmarked
    · exact absurd heq.symm hposition

/-- After a long press the marked rows are the selected ones exactly if the press selects what
it marks. -/
theorem agree_select_iff (h : Agree s) {position : ℕ} {row : Row} {message : MessageModel}
    (hrow : s.visibleRows[position]? = some row) :
    Agree (selectRow s position row message) ↔ SelectsShown s position row message :=
  ⟨selectsShown_of_agree h hrow, fun hselects => hselects.agree h hrow⟩

/-- A step other than a deletion is faithful if the marked rows are the selected ones after
it. -/
theorem faithful_iff_agree {a : Action} (ha : a ≠ .deleteConversationsAction) :
    Faithful currentUser userData ⟨s, a, s'⟩ ↔ Agree s' :=
  ⟨fun h => h.agree, fun h => ⟨h, fun heq => absurd heq ha⟩⟩

namespace Coherent

/-- A deletion is faithful exactly if nothing is selected. -/
theorem faithful_delete_iff (h : Coherent s) :
    Faithful currentUser userData ⟨s, .deleteConversationsAction, { s with marked := [] }⟩ ↔
      s.deletedMessageIds = [] := by
  refine ⟨fun hfaithful => (hfaithful.deletes rfl).unselected, fun hnone => ?_⟩
  have hmarked : s.marked = [] :=
    List.eq_nil_iff_forall_not_mem.mpr fun id hid => by simpa [hnone] using h.selected id hid
  refine ⟨h.agree, fun _ => ⟨fun q => ?_, hnone, fun row hrow => ?_⟩⟩
  · simp [requested_eq_nil hnone, hmarked]
  · have hagree := h.agree row hrow
    rw [hnone] at hagree
    simpa using hagree

/-- A step from a coherent screen is faithful exactly if it matches. -/
theorem faithful_next_iff (h : Coherent s) {a : Action} (hnext : next currentUser s a = some s') :
    Faithful currentUser userData ⟨s, a, s'⟩ ↔ Matching currentUser s a := by
  cases performs_of_next hnext with
  | setConversationData conversationData =>
    exact (faithful_iff_agree (by simp)).trans (iff_of_true h.agree trivial)
  | reloadData =>
    refine (faithful_iff_agree (by simp)).trans (iff_of_true ?_ trivial)
    exact h.agree.of_subset (List.nil_subset _)
  | cellForRowAt hdata hcell =>
    refine (faithful_iff_agree (by simp)).trans ((agree_append_iff h.agree).trans ?_)
    constructor
    · -- the message and the cell are determined by the index
      intro hmark messageData' cell' reusePool' hdata' hcell'
      obtain rfl := Option.some.inj (hdata.symm.trans hdata')
      obtain ⟨rfl, rfl⟩ := Prod.mk.inj (Option.some.inj (hcell.symm.trans hcell'))
      exact hmark
    · intro hmatch
      exact hmatch _ _ _ hdata hcell
  | didEndDisplaying row =>
    refine (faithful_iff_agree (by simp)).trans (iff_of_true ?_ trivial)
    exact h.agree.of_subset List.eraseIdx_subset
  | pressNothing =>
    exact (faithful_iff_agree (by simp)).trans (iff_of_true h.agree trivial)
  | pressRow hrow hmessage =>
    refine (faithful_iff_agree (by simp)).trans ((agree_select_iff h.agree hrow).trans ?_)
    constructor
    · -- and so are the row and the message under the finger
      intro hselects row' message' hrow' hmessage'
      obtain rfl := Option.some.inj (hrow.symm.trans hrow')
      obtain rfl := Option.some.inj (hmessage.symm.trans hmessage')
      exact hselects
    · intro hmatch
      exact hmatch _ _ hrow hmessage
  | deleteConversationsAction => exact h.faithful_delete_iff

/-- What was marked is selected after a long press, if the marked rows are. -/
theorem selected_selectRow (h : Coherent s) {position : ℕ} {row : Row} {message : MessageModel}
    (hrow : s.visibleRows[position]? = some row)
    (hagree : Agree (selectRow s position row message)) :
    ∀ id ∈ (selectRow s position row message).marked,
      id ∈ (selectRow s position row message).deletedMessageIds := by
  intro id hid
  by_cases hsender : row.cell.isSender = true
  · simp only [selectRow, if_pos hsender, List.mem_append, List.mem_singleton] at hid
    rcases hid with hid | rfl
    · exact List.mem_append_left _ (h.selected id hid)
    · -- the pressed row is marked after the press, and so its id is selected
      have hlt : position < s.visibleRows.length := (List.getElem?_eq_some_iff.mp hrow).1
      have hmem := List.mem_set hlt { row with cell := row.cell.select }
      refine (hagree _ hmem).mp ?_
      rw [Cell.isMarked_select, hsender, Bool.true_or]
  · simp only [selectRow, if_neg hsender] at hid
    exact List.mem_append_left _ (h.selected id hid)

/-- A faithful step leads from a coherent screen to a coherent screen. -/
theorem next_of_faithful (h : Coherent s) {a : Action} (hnext : next currentUser s a = some s')
    (hfaithful : Faithful currentUser userData ⟨s, a, s'⟩) : Coherent s' := by
  refine ⟨hfaithful.agree, ?_⟩
  cases performs_of_next hnext with
  | pressRow hrow hmessage => exact h.selected_selectRow hrow hfaithful.agree
  | deleteConversationsAction => exact fun id hid => absurd hid List.not_mem_nil
  -- the other steps leave the ids alone
  | setConversationData _ => exact h.selected
  | reloadData => exact h.selected
  | cellForRowAt _ _ => exact h.selected
  | didEndDisplaying _ => exact h.selected
  | pressNothing => exact h.selected

end Coherent

/-- The screen is opened with an empty table and nothing selected. -/
theorem coherent_of_init (h : (machine currentUser).init s) : Coherent s := by
  obtain rfl := h
  exact ⟨by simp [Agree, opened], by simp [opened]⟩

/-- The steps of a run are all faithful exactly when all of them match. -/
theorem faithful_iff_matching (userData : UserResponse) {steps : List (Step Screen Action)}
    (hinit : (machine currentUser).init s) (hrun : Run (machine currentUser) s steps s') :
    (∀ st ∈ steps, Faithful currentUser userData st) ↔
      ∀ st ∈ steps, Matching currentUser st.pre st.action := by
  refine hrun.forall_iff (coherent_of_init hinit) (fun s a s' h ha hnext => ?_)
    (fun _ _ _ h hnext => h.faithful_next_iff hnext)
  have hfaithful : Faithful currentUser userData ⟨s, a, s'⟩ :=
    (h.faithful_next_iff hnext).mpr ha
  exact h.next_of_faithful hnext hfaithful

/-! ## Runs of two users -/

/-- Two messages of `a` and one of `b`. -/
def threadOfTwo : List MessageModel :=
  [⟨"m", "a", "b", "hi", 1⟩, ⟨"n", "a", "b", "there", 2⟩, ⟨"o", "b", "a", "hello", 3⟩]

/-- The user `b`, as the chat list gives it to the screen. -/
def receiver : UserResponse := ⟨some "b", none, none, none, none⟩

/-- A message of each user is shown, and the own one is selected. -/
theorem faithful_iff_matching_ownMessage :
    ∃ steps s', Run (machine (some ⟨"a", none⟩)) opened steps s' ∧
      s'.deletedMessageIds = ["m"] ∧
      s'.visibleRows.map (fun row => row.cell.isMarked) = [true, false] ∧
      ∀ st ∈ steps, Faithful (some ⟨"a", none⟩) receiver st := by
  have hrun : (machine (some ⟨"a", none⟩)).execute opened
      [.setConversationData threadOfTwo, .reloadData, .cellForRowAt 0 none,
        .cellForRowAt 2 none, .messageTapRecognizer (some 0)] = some (_, _) := rfl
  refine ⟨_, _, Run.of_execute hrun, rfl, rfl, ?_⟩
  refine (faithful_iff_matching receiver rfl (Run.of_execute hrun)).mpr ?_
  simp only [List.forall_mem_cons]
  -- a new cell is not marked, and nothing is selected yet
  have hnew {s : Screen} {index : ℕ} {message : MessageModel} {cell : Cell}
      (hdata : s.conversationData[index]? = some message)
      (hcell : dequeue (some ⟨"a", none⟩) message none s.reusePool = some (cell, s.reusePool))
      (hmark : cell.isMarked = false) (hnone : s.deletedMessageIds = []) :
      Matching (some ⟨"a", none⟩) s (.cellForRowAt index none) := by
    intro message' cell' reusePool' hdata' hcell'
    obtain rfl := Option.some.inj (hdata.symm.trans hdata')
    obtain ⟨rfl, -⟩ := Prod.mk.inj (Option.some.inj (hcell.symm.trans hcell'))
    simp [hmark, hnone]
  refine ⟨trivial, trivial, hnew rfl rfl rfl rfl, hnew rfl rfl rfl rfl, ?_,
    List.forall_mem_nil _⟩
  rintro row message ⟨⟩ ⟨⟩
  refine ⟨fun _ => .inr rfl, fun position' row' hrow' hid => ?_⟩
  match position' with
  | 0 =>
    obtain ⟨⟩ := hrow'
    exact .inr ⟨rfl, rfl⟩
  | 1 =>
    obtain ⟨⟩ := hrow'
    exact absurd hid (by decide)
  | _ + 2 => cases hrow'

/-- Three runs. A long press on a message of the other user selects it without a mark; a
deletion leaves its message selected, and the next one asks for it again; and a marked cell
shows its mark on the message it is reused for. -/
theorem not_faithful_mismatched :
    (∃ steps s', Run (machine (some ⟨"a", none⟩)) opened steps s' ∧
      s'.deletedMessageIds = ["o"] ∧
      s'.visibleRows.map (fun row => row.cell.isMarked) = [false] ∧
      ¬∀ st ∈ steps, Faithful (some ⟨"a", none⟩) receiver st) ∧
    (∃ steps s', Run (machine (some ⟨"a", none⟩)) opened steps s' ∧
      s'.marked = [] ∧ requested (some ⟨"a", none⟩) receiver s' =
        [.removeValue ["conversations", "a_b", "messages", "m"]] ∧
      ¬∀ st ∈ steps, Faithful (some ⟨"a", none⟩) receiver st) ∧
    ∃ steps s', Run (machine (some ⟨"a", none⟩)) opened steps s' ∧
      s'.deletedMessageIds = ["m"] ∧
      s'.visibleRows.map (fun row => (row.message.messageID, row.cell.isMarked)) =
        [("n", true)] ∧
      ¬∀ st ∈ steps, Faithful (some ⟨"a", none⟩) receiver st := by
  refine ⟨?_, ?_, ?_⟩
  · -- the message of the other user is selected, and its cell cannot show it
    have hrun : (machine (some ⟨"a", none⟩)).execute opened
        [.setConversationData threadOfTwo, .reloadData, .cellForRowAt 2 none,
          .messageTapRecognizer (some 0)] = some (_, _) := rfl
    refine ⟨_, _, Run.of_execute hrun, rfl, rfl, fun h => ?_⟩
    simp only [List.forall_mem_cons] at h
    obtain ⟨-, -, -, hlast, -⟩ := h
    have hmarked := (hlast.agree _ List.mem_cons_self).mpr (by decide)
    cases hmarked
  · have hrun : (machine (some ⟨"a", none⟩)).execute opened
        [.setConversationData threadOfTwo, .reloadData, .cellForRowAt 0 none,
          .messageTapRecognizer (some 0), .deleteConversationsAction] = some (_, _) := rfl
    refine ⟨_, _, Run.of_execute hrun, rfl, rfl, fun h => ?_⟩
    simp only [List.forall_mem_cons] at h
    obtain ⟨-, -, -, -, hlast, -⟩ := h
    cases (hlast.deletes rfl).unselected
  · have hrun : (machine (some ⟨"a", none⟩)).execute opened
        [.setConversationData threadOfTwo, .reloadData, .cellForRowAt 0 none,
          .messageTapRecognizer (some 0), .reloadData, .cellForRowAt 1 (some 0)] =
        some (_, _) := rfl
    refine ⟨_, _, Run.of_execute hrun, rfl, rfl, fun h => ?_⟩
    simp only [List.forall_mem_cons] at h
    obtain ⟨-, -, -, -, -, hlast, -⟩ := h
    have hselected := (hlast.agree _ List.mem_cons_self).mp rfl
    revert hselected
    decide

end LearnCode.MessageSelection
