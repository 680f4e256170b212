import LearnCode.Conversation.Refresh

/-!
# Rows of the chat table

`tableView(_:cellForRowAt:)` and `messageTapRecognizer` index `conversationData` by a row that the
table knows from its last reload. The observer empties the array at once, and the table is reloaded
only after the read that follows; in between the rows of the table have no messages. Every row has
one in the runs in which the observer is told nothing while the table has rows.

## Main definitions

* `State` and `Action`: the chat screen with the ids that have been selected, and whether an
  index out of range has been used;
* `machine`: the refreshing screen with the requests of its table;
* `InRange`: each row of the table has a message, and no index has been out of range;
* `ToldWithoutRows`: the observer is told nothing while the table has rows.

## Main results

* `inRange_screen_iff`: what a step of the refresh does to the rows;
* `inRange_iff_toldWithoutRows`: the states of a run are in range exactly when its steps meet the
  condition.
-/

namespace LearnCode.ConversationTable

open Transition MessageManager ConversationViewController

/-- The chat screen with its table. -/
structure State where
  /-- The array, the rows of the table, and what is pending. -/
  screen : Screen
  /-- `deletedMessageIds`. -/
  deletedMessageIds : List String
  /-- The array was indexed out of range, which ends the app. -/
  trapped : Bool

/-- What happens next. -/
inductive Action : Type where
  /-- A change, a callback, a block of the main queue or a reply. -/
  | screen (action : ConversationViewController.Action)
  /-- The table asks for the cell of a row, when it is loaded or scrolled. -/
  | cellForRowAt (row : ℕ)
  /-- A long press, on a row of the table or beside all rows. -/
  | messageTapRecognizer (row : Option ℕ)

/-- `tableView(_:numberOfRowsInSection:)` at the last reload. -/
def State.numberOfRows (s : State) : ℕ := s.screen.tableRows.length

/-- `tableView(_:cellForRowAt:)`, which reads the message of the row. -/
def cellForRowAt (row : ℕ) (s : State) : State :=
  match s.screen.conversationData[row]? with
  | none => { s with trapped := true }
  | some _ => s

/-- `messageTapRecognizer` on a row. -/
def messageTapRecognizer (row : ℕ) (s : State) : State :=
  match s.screen.conversationData[row]? with
  | none => { s with trapped := true }
  | some message => { s with deletedMessageIds := s.deletedMessageIds ++ [message.messageID] }

/-- The state after an action, if it is possible. The table knows of no rows but those of its last
reload. -/
def next (conversationPath : String) (s : State) (a : Action) : Option State :=
  if s.trapped then none
  else match a with
    | .screen action =>
      (ConversationViewController.next conversationPath s.screen action).map fun screen =>
        { s with screen := screen }
    | .cellForRowAt row => if row < s.numberOfRows then some (cellForRowAt row s) else none
    | .messageTapRecognizer none => some s
    | .messageTapRecognizer (some row) =>
      if row < s.numberOfRows then some (messageTapRecognizer row s) else none

/-- The screen of a thread with its table, from its opening on. -/
def machine (conversationPath : String) : Machine State Action where
  init s := ∃ node, s = ⟨configureChatUI node, [], false⟩
  next := next conversationPath

/-- Each row of the table has a message, and no index has been out of range. -/
structure InRange (s : State) : Prop where
  rows : ∀ row < s.numberOfRows, ∃ message, s.screen.conversationData[row]? = some message
  untrapped : s.trapped = false

/-- The observer is told a value only while the table has no rows. -/
def ToldWithoutRows (s : State) (a : Action) : Prop :=
  ∀ order, a = .screen (.callback order) → s.numberOfRows = 0

/-! ## What the steps do to the rows -/

variable {conversationPath : String} {s s' : State}

/-- The rows of the table have messages when there are as many messages as rows. -/
theorem inRange_iff (h : s.trapped = false) :
    InRange s ↔ s.numberOfRows ≤ s.screen.conversationData.length := by
  constructor
  · intro hrange
    by_contra hlt
    obtain ⟨message, hmessage⟩ := hrange.rows _ (Nat.lt_of_not_le hlt)
    simp at hmessage
  · intro hle
    refine ⟨fun row hrow => ⟨s.screen.conversationData[row], ?_⟩, h⟩
    exact List.getElem?_eq_getElem (Nat.lt_of_lt_of_le hrow hle)

/-- A step of the refresh leaves a message for each row, unless the observer is told something
while the table has rows. -/
theorem inRange_screen_iff (h : InRange s) {action : ConversationViewController.Action}
    {screen : Screen}
    (hnext : ConversationViewController.next conversationPath s.screen action = some screen) :
    InRange { s with screen := screen } ↔ ToldWithoutRows s (.screen action) := by
  have hle : s.screen.tableRows.length ≤ s.screen.conversationData.length :=
    (inRange_iff h.untrapped).mp h
  rw [inRange_iff (s := { s with screen := screen }) h.untrapped]
  change screen.tableRows.length ≤ screen.conversationData.length ↔ _
  cases performs_of_next hnext with
  | change node => exact iff_of_true hle (by simp [ToldWithoutRows])
  | @callback order node callbacks observed _ =>
    -- the array is empty now, and the rows are those of before
    change s.numberOfRows ≤ 0 ↔ _
    rw [Nat.le_zero]
    exact ⟨fun hnone _ _ => hnone, fun htold => htold order rfl⟩
  | @block index block _ =>
    refine iff_of_true ?_ (by simp [ToldWithoutRows])
    cases block with
    | getAllConversations => exact hle
    -- the table is loaded from the array as it is
    | registerChatTableCell => exact le_rfl
    | reloadData => exact le_rfl
  | reply _ =>
    refine iff_of_true ?_ (by simp [ToldWithoutRows])
    -- the reply makes the array longer
    simp only [conversationsRead, List.length_append]
    omega

/-- A step from a state in range leads to a state in range exactly when it meets the condition. -/
theorem InRange.next_iff (h : InRange s) {a : Action}
    (hnext : next conversationPath s a = some s') : InRange s' ↔ ToldWithoutRows s a := by
  have hgoes : ¬ s.trapped = true := by simp [h.untrapped]
  simp only [ConversationTable.next] at hnext
  rw [if_neg hgoes] at hnext
  cases a with
  | screen action =>
    obtain ⟨screen, hscreen, rfl⟩ := Option.map_eq_some_iff.mp hnext
    exact inRange_screen_iff h hscreen
  | cellForRowAt row =>
    -- the row is one of the last reload, so there is a message for it
    obtain ⟨hrow, ⟨⟩⟩ := Option.ite_none_right_eq_some.mp hnext
    obtain ⟨message, hmessage⟩ := h.rows row hrow
    refine iff_of_true ?_ nofun
    rwa [cellForRowAt, hmessage]
  | messageTapRecognizer row =>
    refine iff_of_true ?_ nofun
    cases row with
    | none =>
      obtain rfl := Option.some.inj hnext
      exact h
    | some row =>
      obtain ⟨hrow, ⟨⟩⟩ := Option.ite_none_right_eq_some.mp hnext
      obtain ⟨message, hmessage⟩ := h.rows row hrow
      rw [messageTapRecognizer, hmessage]
      exact ⟨h.rows, h.untrapped⟩

/-- The table is opened without rows. -/
theorem inRange_of_init (h : (machine conversationPath).init s) : InRange s := by
  obtain ⟨node, rfl⟩ := h
  exact ⟨nofun, rfl⟩

/-- The states that a run reaches are all in range exactly when the observer is told nothing while
the table has rows. -/
theorem inRange_iff_toldWithoutRows {steps : List (Step State Action)}
    (hinit : (machine conversationPath).init s)
    (hrun : Run (machine conversationPath) s steps s') :
    (∀ st ∈ steps, InRange st.post) ↔ ∀ st ∈ steps, ToldWithoutRows st.pre st.action :=
  hrun.forall_iff (inRange_of_init hinit) (fun _ _ _ h ha hnext => (h.next_iff hnext).mpr ha)
    (fun _ _ _ h hnext => h.next_iff hnext)

/-- A message is loaded into the table, which then asks for its cell. -/
theorem inRange_iff_toldWithoutRows_loaded :
    ∃ steps s', Run (machine (threadKey "a" "b")) ⟨configureChatUI helloNode, [], false⟩ steps s' ∧
      s'.numberOfRows = 1 ∧ ∀ st ∈ steps, InRange st.post := by
  have hrun : (machine (threadKey "a" "b")).execute ⟨configureChatUI helloNode, [], false⟩
      [.screen (.block 0), .screen (.callback .asListed), .screen (.block 0),
        .screen (.reply 0 0 .asListed), .screen (.block 0), .cellForRowAt 0] = some (_, _) := rfl
  refine ⟨_, _, Run.of_execute hrun, rfl, ?_⟩
  refine (inRange_iff_toldWithoutRows ⟨_, rfl⟩ (Run.of_execute hrun)).mpr ?_
  simp only [List.forall_mem_cons]
  exact ⟨nofun, fun _ _ => rfl, nofun, nofun, nofun, nofun, List.forall_mem_nil _⟩

/-- Another change is reported when the message is in the table, and the table asks for the cell of
its row before it is loaded again. -/
theorem not_inRange_toldWithRows :
    ∃ steps s s', Run (machine (threadKey "a" "b")) s steps s' ∧
      (machine (threadKey "a" "b")).init s ∧ s'.trapped = true ∧
      ∃ st ∈ steps, ¬InRange st.post := by
  have hrun : (machine (threadKey "a" "b")).execute ⟨configureChatUI helloNode, [], false⟩
      [.screen (.block 0), .screen (.callback .asListed), .screen (.block 0),
        .screen (.reply 0 0 .asListed), .screen (.block 0), .screen (.change .empty),
        .screen (.callback .asListed), .cellForRowAt 0] = some (_, _) := rfl
  -- the second report leaves row 0 without a message
  refine ⟨_, _, _, Run.of_execute hrun, ⟨_, rfl⟩, rfl, _, List.mem_of_getElem? (i := 6) rfl, ?_⟩
  intro hrange
  obtain ⟨message, hmessage⟩ := hrange.rows 0 Nat.one_pos
  cases hmessage

end LearnCode.ConversationTable
