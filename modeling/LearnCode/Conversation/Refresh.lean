import LearnCode.Messages.ThreadRead
import LearnCode.Library.Transition

/-!
# Refreshing the open chat screen

`ConversationViewController` observes the node of all conversations. Each change empties
`conversationData` at once and schedules a read, whose reply is appended. The screen converges
to the latest database value in every run in which no change is reported while the refresh for
an earlier one is still under way.

## Main definitions

* `Screen` and `Action`: the database, the callbacks, main-queue blocks and reads that are
  pending, and the arrays of the screen, with what can happen next;
* `machine`: the screen as a state machine;
* `Converged`: the screen shows what a read of the latest value computes;
* `NoRefreshPending`: a change is reported only when no refresh is under way.

## Main results

* `Refreshing.next`: what each step does to a refresh that is under way;
* `converged_of_noRefreshPending`: convergence of every run that meets the condition.
-/

namespace LearnCode.ConversationViewController

open Callback Transition MessageManager

/-- An order of enumeration for the dictionaries of a snapshot. -/
structure Enumeration where
  /-- The node in this order. -/
  enumerate : ConversationsNode → ConversationsNode
  /-- Only the order changes. -/
  reordered : ∀ node : ConversationsNode, node.Reordered (enumerate node)

/-- The order in which a node is listed. -/
def Enumeration.asListed : Enumeration := ⟨id, ConversationsNode.Reordered.refl⟩

/-- A block on the main queue. -/
inductive Block : Type where
  /-- The first block of `configureChatUI`, which registers the cells and loads the table. -/
  | registerChatTableCell
  /-- The block of the observer, which reads the node. -/
  | getAllConversations
  /-- The block of the read, which loads the table. -/
  | reloadData
deriving DecidableEq

/-- The screen with everything that is pending for it. -/
structure Screen where
  /-- The content of the node `conversations`. -/
  database : ConversationsNode
  /-- The values that are still to be reported to the observer. -/
  callbacks : List ConversationsNode
  /-- The array captured by the observer. -/
  observed : List MessageModel
  /-- The blocks on the main queue. -/
  mainQueue : List Block
  /-- The reads without a reply, each with the values the node has had since its request, the
  latest first. -/
  reads : List (List ConversationsNode)
  /-- `conversationData`. -/
  conversationData : List MessageModel
  /-- The rows of the table at its last reload. -/
  tableRows : List MessageModel

/-- What happens next to the screen. -/
inductive Action : Type where
  /-- The node gets a new content. -/
  | change (node : ConversationsNode)
  /-- The earliest unreported value is reported to the observer. -/
  | callback (order : Enumeration)
  /-- A block of the main queue runs. -/
  | block (index : ℕ)
  /-- A read is answered with the value the node had at some moment since the request. -/
  | reply (index moment : ℕ) (order : Enumeration)

/-- The screen after `configureChatUI`: the observer is told the present value first. -/
def configureChatUI (node : ConversationsNode) : Screen where
  database := node
  callbacks := [node]
  observed := []
  mainQueue := [.registerChatTableCell]
  reads := []
  conversationData := []
  tableRows := []

/-- The closure that `configureChatUI` gives to `observeConversations`. -/
def conversationsObserved (s : Screen) : Screen :=
  { s with conversationData := [], mainQueue := s.mainQueue ++ [.getAllConversations] }

/-- The observer is told a value of the node. -/
def observe (conversationPath : String) (node : ConversationsNode) (s : Screen) : Screen :=
  let (messages, conversations) :=
    observeConversationsOnValue conversationPath node.value s.observed
  let s := { s with observed := messages }
  match conversations with
  | some _ => conversationsObserved s
  | none => s

/-- The closure that the method `getAllConversations` gives to the manager's. -/
def conversationsRead (s : Screen) (conversations : List MessageModel) : Screen :=
  { s with
    conversationData := s.conversationData ++ conversations
    mainQueue := s.mainQueue ++ [.reloadData] }

/-- A read is answered by a value of the node. -/
def read (conversationPath : String) (node : ConversationsNode) (s : Screen) : Screen :=
  let body : Prog (List MessageModel) :=
    getAllConversationsOnValue conversationPath node.value fun messages => .complete messages .done
  body.completed.foldl conversationsRead s

/-- A block of the main queue runs. -/
def runBlock (s : Screen) : Block → Screen
  | .registerChatTableCell => { s with tableRows := s.conversationData }
  | .getAllConversations => { s with reads := s.reads ++ [[s.database]] }
  | .reloadData => { s with tableRows := s.conversationData }

/-- The screen after an action, if it is possible. -/
def next (conversationPath : String) (s : Screen) : Action → Option Screen
  | .change node =>
    some { s with
      database := node
      callbacks := s.callbacks ++ [node]
      reads := s.reads.map (node :: ·) }
  | .callback order =>
    match s.callbacks with
    | [] => none
    | node :: callbacks =>
      some (observe conversationPath (order.enumerate node) { s with callbacks := callbacks })
  | .block index =>
    match s.mainQueue[index]? with
    | none => none
    | some block => some (runBlock { s with mainQueue := s.mainQueue.eraseIdx index } block)
  | .reply index moment order =>
    match s.reads[index]?.bind (·[moment]?) with
    | none => none
    | some node =>
      some (read conversationPath (order.enumerate node)
        { s with reads := s.reads.eraseIdx index })

/-- The screen of a thread, from its opening on. -/
def machine (conversationPath : String) : Machine Screen Action where
  init s := ∃ node, s = configureChatUI node
  next := next conversationPath

/-- No callback, block or reply is pending. -/
def Quiet (s : Screen) : Prop := s.callbacks = [] ∧ s.mainQueue = [] ∧ s.reads = []

/-- The screen holds the list that a read of the latest value computes: each message of that
list once, in the order of the timestamps. -/
structure Converged (conversationPath : String) (s : Screen) : Prop where
  /-- The list is the one computed from the latest value in some order of enumeration. -/
  loaded : ∃ order : Enumeration,
    s.conversationData = loadedMessages conversationPath (order.enumerate s.database)
  /-- No message is missing and none is repeated. -/
  perm : s.conversationData.Perm (loadedMessages conversationPath s.database)
  /-- The messages are in the order of their timestamps. -/
  sorted : s.conversationData.Pairwise (fun a b => a.timestamp ≤ b.timestamp)

/-- A change is reported only when the refresh for an earlier one is over: its block has run
and its read has been answered. -/
def NoRefreshPending (s : Screen) (a : Action) : Prop :=
  ∀ order, a = .callback order → .getAllConversations ∉ s.mainQueue ∧ s.reads = []

/-! ## What the closures do -/

/-- Whatever the observer is told, `conversationData` is emptied and a read is scheduled. -/
theorem observe_eq (conversationPath : String) (node : ConversationsNode) (s : Screen) :
    ∃ messages, observe conversationPath node s =
      conversationsObserved { s with observed := messages } := by
  obtain ⟨threads, nested⟩ := node
  cases threads with
  | nil => exact ⟨_, rfl⟩
  | cons thread threads => exact ⟨_, rfl⟩

/-- A reply appends the list computed from its value, once. -/
theorem read_eq (conversationPath : String) (node : ConversationsNode) (s : Screen) :
    read conversationPath node s =
      conversationsRead s (loadedMessages conversationPath node) := by
  simp [read, getAllConversationsOnValue_eq]

/-- A block that runs leaves all other blocks on the main queue. -/
theorem count_eraseIdx {mainQueue : List Block} {index : ℕ} {block : Block}
    (h : mainQueue[index]? = some block) (b : Block) :
    mainQueue.count b = (mainQueue.eraseIdx index).count b + if block = b then 1 else 0 := by
  obtain ⟨hlt, hget⟩ := List.getElem?_eq_some_iff.mp h
  have hperm := List.getElem_cons_eraseIdx_perm hlt
  rw [hget] at hperm
  rw [← hperm.count_eq, List.count_cons]
  simp [beq_iff_eq]

/-- What a step of the screen does: the node changes and the value is to be reported; the array is
emptied and a read is scheduled; a block leaves the main queue; or a reply is appended. -/
inductive Performs (conversationPath : String) (s : Screen) : Action → Screen → Prop
  | change (node : ConversationsNode) :
      Performs conversationPath s (.change node) { s with
        database := node
        callbacks := s.callbacks ++ [node]
        reads := s.reads.map (node :: ·) }
  | callback {order : Enumeration} {node : ConversationsNode} {callbacks : List ConversationsNode}
      (observed : List MessageModel) : s.callbacks = node :: callbacks →
      Performs conversationPath s (.callback order)
        (conversationsObserved { s with callbacks := callbacks, observed := observed })
  | block {index : ℕ} {block : Block} : s.mainQueue[index]? = some block →
      Performs conversationPath s (.block index)
        (runBlock { s with mainQueue := s.mainQueue.eraseIdx index } block)
  | reply {index moment : ℕ} {order : Enumeration} {node : ConversationsNode} :
      s.reads[index]?.bind (·[moment]?) = some node →
      Performs conversationPath s (.reply index moment order)
        (conversationsRead { s with reads := s.reads.eraseIdx index }
          (loadedMessages conversationPath (order.enumerate node)))

/-- Each step does one of these. -/
theorem performs_of_next {conversationPath : String} {s s' : Screen} {a : Action}
    (hnext : next conversationPath s a = some s') : Performs conversationPath s a s' := by
  cases a with
  | change node =>
    obtain rfl := Option.some.inj hnext
    exact .change node
  | callback order =>
    -- a callback reads the node in one of its orders
    simp only [next] at hnext
    split at hnext
    · cases hnext
    · rename_i node callbacks hcallbacks
      obtain ⟨observed, hobserve⟩ :=
        observe_eq conversationPath (order.enumerate node) { s with callbacks := callbacks }
      rw [hobserve] at hnext
      obtain rfl := Option.some.inj hnext
      exact .callback observed hcallbacks
  | block index =>
    simp only [next] at hnext
    split at hnext
    · cases hnext
    · rename_i block hblock
      obtain rfl := Option.some.inj hnext
      exact .block hblock
  | reply index moment order =>
    simp only [next] at hnext
    split at hnext
    · cases hnext
    · rename_i node hread
      rw [read_eq] at hnext
      obtain rfl := Option.some.inj hnext
      exact .reply hread

/-! ## A refresh under way -/

/-- The stage of the refresh: none is under way, its block waits on the main queue, or its
read waits for the reply. -/
inductive Refreshing (conversationPath : String) (s : Screen) : Prop
  | idle :
      s.mainQueue.count .getAllConversations = 0 → s.reads = [] →
      (s.callbacks = [] → ∃ order : Enumeration,
        s.conversationData = loadedMessages conversationPath (order.enumerate s.database)) →
      Refreshing conversationPath s
  | queued :
      s.mainQueue.count .getAllConversations = 1 → s.reads = [] → s.conversationData = [] →
      Refreshing conversationPath s
  | reading (moments : List ConversationsNode) :
      s.mainQueue.count .getAllConversations = 0 → s.reads = [moments] →
      s.conversationData = [] →
      (s.callbacks = [] → ∀ node ∈ moments, node = s.database) →
      Refreshing conversationPath s

variable {conversationPath : String} {s s' : Screen}

/-- A new content of the node does not end a refresh, and is still to be reported. -/
private theorem Refreshing.change (h : Refreshing conversationPath s)
    (node : ConversationsNode) :
    Refreshing conversationPath { s with
      database := node
      callbacks := s.callbacks ++ [node]
      reads := s.reads.map (node :: ·) } := by
  cases h with
  | idle hqueue hreads _ => exact .idle hqueue (by simp [hreads]) (by simp)
  | queued hqueue hreads hdata => exact .queued hqueue (by simp [hreads]) hdata
  | reading moments hqueue hreads hdata _ =>
    exact .reading (node :: moments) hqueue (by simp [hreads]) hdata (by simp)

/-- A report starts the refresh, when none is under way. -/
private theorem refreshing_observed (hqueue : .getAllConversations ∉ s.mainQueue)
    (hreads : s.reads = []) (callbacks : List ConversationsNode) (observed : List MessageModel) :
    Refreshing conversationPath
      (conversationsObserved { s with callbacks := callbacks, observed := observed }) := by
  refine .queued ?_ hreads rfl
  simp [conversationsObserved, List.count_eq_zero.mpr hqueue]

/-- The block of a refresh starts its read, and the other blocks only load the table. -/
private theorem Refreshing.block (h : Refreshing conversationPath s) {index : ℕ}
    {block : Block} (hblock : s.mainQueue[index]? = some block) :
    Refreshing conversationPath
      (runBlock { s with mainQueue := s.mainQueue.eraseIdx index } block) := by
  have hcount := count_eraseIdx hblock .getAllConversations
  by_cases hget : block = .getAllConversations
  · -- only while the block is queued can it be the one that runs
    subst hget
    rw [if_pos rfl] at hcount
    cases h with
    | idle hqueue _ _ => omega
    | queued hqueue hreads hdata =>
      refine .reading [s.database] ?_ (by simp [runBlock, hreads]) hdata (by simp [runBlock])
      simp only [runBlock]
      omega
    | reading _ hqueue _ _ _ => omega
  · rw [if_neg hget, Nat.add_zero] at hcount
    -- any other block loads the table from the data there is
    have hload : runBlock { s with mainQueue := s.mainQueue.eraseIdx index } block =
        { s with mainQueue := s.mainQueue.eraseIdx index, tableRows := s.conversationData } := by
      cases block with
      | getAllConversations => exact absurd rfl hget
      | registerChatTableCell => rfl
      | reloadData => rfl
    rw [hload]
    cases h with
    | idle hqueue hreads hdata => exact .idle (hcount ▸ hqueue) hreads hdata
    | queued hqueue hreads hdata => exact .queued (hcount ▸ hqueue) hreads hdata
    | reading moments hqueue hreads hdata hnow =>
      exact .reading moments (hcount ▸ hqueue) hreads hdata hnow

/-- The reply ends the refresh. -/
private theorem Refreshing.reply (h : Refreshing conversationPath s) {index moment : ℕ}
    {node : ConversationsNode} (hread : s.reads[index]?.bind (·[moment]?) = some node)
    (order : Enumeration) :
    Refreshing conversationPath (conversationsRead { s with reads := s.reads.eraseIdx index }
      (loadedMessages conversationPath (order.enumerate node))) := by
  obtain ⟨moments, hmoments, hnode⟩ := Option.bind_eq_some_iff.mp hread
  cases h with
  | idle _ hreads _ => simp [hreads] at hmoments
  | queued _ hreads _ => simp [hreads] at hmoments
  | reading moments' hqueue hreads hdata hnow =>
    rw [hreads, List.getElem?_singleton] at hmoments
    obtain ⟨rfl, rfl⟩ : index = 0 ∧ moments' = moments := by
      split_ifs at hmoments with hindex
      exact ⟨hindex, Option.some.inj hmoments⟩
    refine .idle (by simpa [conversationsRead] using hqueue)
      (by simp [conversationsRead, hreads]) fun hcallbacks => ⟨order, ?_⟩
    have hlatest : node = s.database := hnow hcallbacks node (List.mem_of_getElem? hnode)
    simp [conversationsRead, hdata, hlatest]

/-- Each step that meets the condition takes a refresh from one stage to the next. -/
theorem Refreshing.next (h : Refreshing conversationPath s) {a : Action}
    (ha : NoRefreshPending s a) (hnext : next conversationPath s a = some s') :
    Refreshing conversationPath s' := by
  cases performs_of_next hnext with
  | change node => exact h.change node
  | callback observed _ =>
    obtain ⟨hqueue, hreads⟩ := ha _ rfl
    exact refreshing_observed hqueue hreads _ observed
  | block hblock => exact h.block hblock
  | reply hread => exact h.reply hread _

/-- The screen starts with a value to be reported, and without a refresh. -/
theorem refreshing_configureChatUI (conversationPath : String) (node : ConversationsNode) :
    Refreshing conversationPath (configureChatUI node) :=
  .idle rfl rfl (by simp [configureChatUI])

/-- A screen for which nothing is pending has converged. -/
theorem Refreshing.converged (h : Refreshing conversationPath s) (hquiet : Quiet s) :
    Converged conversationPath s := by
  obtain ⟨hcallbacks, hqueue, hreads⟩ := hquiet
  cases h with
  | idle _ _ hdata =>
    obtain ⟨order, horder⟩ := hdata hcallbacks
    refine ⟨⟨order, horder⟩, ?_, ?_⟩
    · rw [horder]
      exact (loadedMessages_perm_of_reordered _ (order.reordered s.database)).symm
    · rw [horder]
      exact loadedMessages_pairwise _ _
  | queued hcount _ _ => simp [hqueue] at hcount
  | reading _ _ hreading _ _ => simp [hreads] at hreading

/-- In a run in which no change is reported while a refresh is under way, every state without
pending callbacks, blocks and reads has converged to the latest value. -/
theorem converged_of_noRefreshPending {steps : List (Step Screen Action)}
    (hrun : Run (machine conversationPath) s steps s')
    (hinit : (machine conversationPath).init s)
    (hsteps : ∀ st ∈ steps, NoRefreshPending st.pre st.action) :
    (Quiet s' → Converged conversationPath s') ∧
      ∀ st ∈ steps, Quiet st.pre → Converged conversationPath st.pre := by
  obtain ⟨node, rfl⟩ := hinit
  obtain ⟨hend, hall⟩ := hrun.invariant (refreshing_configureChatUI conversationPath node)
    (fun s a s' hs ha hnext => Refreshing.next hs ha hnext) hsteps
  exact ⟨hend.converged, fun st hst hquiet => (hall st hst).1.converged hquiet⟩

/-- A message of `a` to `b`. -/
def helloNode : ConversationsNode := .single (threadKey "a" "b") "m" ⟨"", "a", "b", "hello", 1⟩

/-- One report, its block, the reply and the reload. -/
theorem converged_of_noRefreshPending_single :
    ∃ steps s', Run (machine (threadKey "a" "b")) (configureChatUI helloNode) steps s' ∧
      Quiet s' ∧ Converged (threadKey "a" "b") s' := by
  have hrun : (machine (threadKey "a" "b")).execute (configureChatUI helloNode)
      [.block 0, .callback .asListed, .block 0, .reply 0 0 .asListed, .block 0] =
      some (_, _) := rfl
  refine ⟨_, _, Run.of_execute hrun, ⟨rfl, rfl, rfl⟩, ?_⟩
  refine (converged_of_noRefreshPending (Run.of_execute hrun) ⟨_, rfl⟩ ?_).1 ⟨rfl, rfl, rfl⟩
  -- the only report is the first step but one, and nothing has been scheduled by then
  simp only [List.forall_mem_cons]
  refine ⟨nofun, fun order _ => ⟨by decide, rfl⟩, nofun, nofun, nofun, nofun⟩

/-- A second report between the first and its reply: the message is shown twice. -/
theorem not_converged_of_refreshPending :
    ∃ steps s s', Run (machine (threadKey "a" "b")) s steps s' ∧
      (machine (threadKey "a" "b")).init s ∧ Quiet s' ∧
      ¬Converged (threadKey "a" "b") s' := by
  have hrun : (machine (threadKey "a" "b")).execute (configureChatUI .empty)
      [.block 0, .callback .asListed, .change helloNode, .callback .asListed, .block 0, .block 0,
        .reply 0 0 .asListed, .reply 0 0 .asListed, .block 0, .block 0] = some (_, _) := rfl
  refine ⟨_, _, _, Run.of_execute hrun, ⟨_, rfl⟩, ⟨rfl, rfl, rfl⟩, fun h => ?_⟩
  have hlength := h.perm.length_eq
  revert hlength
  decide

end LearnCode.ConversationViewController
