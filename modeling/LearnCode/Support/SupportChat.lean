import LearnCode.Library.Transition
import LearnCode.Model

/-!
# Support requests

`SupportChatViewController` sends a query to the admin: the text of its text view, or a topic that
the user has tapped. The text view keeps the placeholder of the storyboard, as its delegate refuses
every edit, so the guard against an empty text never holds, a tapped topic is answered by an empty
message, and else the placeholder is sent. No press of Send sends what the user has chosen.

## Main definitions

* `Screen` and `Action`: the text view, the stored topic and what the user has chosen, with what the
  user can do;
* `machine`: the screen as a state machine;
* `SendsChoice`: a press of Send sends the typed text, or else the topic that was tapped last.

## Main results

* `Refused.content_eq`: what a press of Send sends;
* `sendsChoice_iff_not_sent`: the presses of Send in a run all send the choice exactly when there
  are none.
-/

namespace LearnCode.SupportChatViewController

open Transition

/-- `queryTypeArray`: the topics that are offered. -/
def queryTypeArray : List String :=
  ["Credit Card Transaction Issue", "Booking Difficulties", "Refund Enquiry",
    "Ticket Cancellations", "Event Informations", "More...", "Issue Not Listed"]

/-- The text of `typeQueryTxtField` in the storyboard. -/
def placeholder : String := "Type your query..."

/-- An `NSRange`. -/
structure NSRange where
  location : ℕ
  length : ℕ

/-- The screen of a support chat. -/
structure Screen where
  currentUserId : String
  /-- `typeQueryTxtField.text`. -/
  typeQueryTxtField : String
  message : String
  /-- History: the text that the user has typed into the text view. -/
  typed : Option String
  /-- History: the topic that the user has tapped last. -/
  tapped : Option String

/-- What the user does. -/
inductive Action : Type where
  /-- An offered topic is tapped. -/
  | didSelectItemAt (item : ℕ)
  /-- An edit of the text view is attempted, which would give it the text `edited`. -/
  | edit (range : NSRange) (replacementText edited : String)
  /-- Send is pressed. -/
  | onClickSendButtonAction (timestamp : TimeInterval)

/-- The screen after it has been loaded. -/
def viewDidLoad (currentUserId : String) : Screen where
  currentUserId := currentUserId
  typeQueryTxtField := placeholder
  message := ""
  typed := none
  tapped := none

/-- `queryTappedGesture`. -/
def queryTappedGesture (index : ℕ) (message : String) (s : Screen) : Screen :=
  match index with
  | 0 => { s with message := message }
  | 1 => { s with message := message }
  | 2 => { s with message := message }
  | 3 => { s with message := message }
  | 4 => { s with message := message }
  | 5 => { s with message := message }
  -- the topic with index 6 is not stored
  | _ => s

/-- `collectionView(_:didSelectItemAt:)` on a topic. -/
def didSelectItemAt (item : ℕ) (s : Screen) : Option Screen :=
  match queryTypeArray[item]? with
  | none => none
  | some topic => some { queryTappedGesture item topic s with tapped := some topic }

/-- `textView(_:shouldChangeTextIn:replacementText:)`. -/
def shouldChangeTextIn (_range : NSRange) (_replacementText : String) : Bool := false

/-- The text view asks its delegate whether it may be edited. The delegate is set by the first block
of the main queue, before the user can touch the view. -/
def edit (range : NSRange) (replacementText edited : String) (s : Screen) : Screen :=
  if shouldChangeTextIn range replacementText then
    { s with typeQueryTxtField := edited, typed := some edited }
  else s

/-- The message that `onClickSendButtonAction` gives to `sendMessagesToAdmin`; none if it shows the
alert. -/
def onClickSendButtonAction (timestamp : TimeInterval) (s : Screen) : Option MessageModel :=
  if s.typeQueryTxtField = "" then none
  else
    let query :=
      if s.message ≠ "" ∧ s.typeQueryTxtField = "" then s.message
      else if s.message = "" ∧ s.typeQueryTxtField ≠ "" then s.typeQueryTxtField
      else ""
    some ⟨"", s.currentUserId, "Admin Bot", query, timestamp⟩

/-- The state after an action, if it is possible. -/
def next (s : Screen) : Action → Option Screen
  | .didSelectItemAt item => didSelectItemAt item s
  | .edit range replacementText edited => some (edit range replacementText edited s)
  | .onClickSendButtonAction _ => some s

/-- The screen from its loading on. -/
def machine : Machine Screen Action where
  init s := ∃ currentUserId, s = viewDidLoad currentUserId
  next := next

/-- What the user has chosen: the typed text, or the last topic if nothing has been typed. -/
def Screen.choice (s : Screen) : Option String :=
  (s.typed.filter (· ≠ "")).orElse fun _ => s.tapped

/-- A press of Send sends the choice of the user, which is not empty, and sends it if there is
one. -/
structure SendsChoice (s : Screen) (sent : Option MessageModel) : Prop where
  content : ∀ message, sent = some message →
    message.content ≠ "" ∧ s.choice = some message.content
  sends : s.choice ≠ none → sent ≠ none

/-- What a step must do: if it is a press of Send, it sends the choice. -/
def Serves (s : Screen) (a : Action) : Prop :=
  ∀ timestamp, a = .onClickSendButtonAction timestamp →
    SendsChoice s (onClickSendButtonAction timestamp s)

/-- The action is no press of Send. -/
def NotSent (a : Action) : Prop := ∀ timestamp, a ≠ .onClickSendButtonAction timestamp

/-! ## What is sent -/

/-- The text view holds the placeholder, and nothing has been typed. -/
structure Refused (s : Screen) : Prop where
  text : s.typeQueryTxtField = placeholder
  typed : s.typed = none
  tapped : ∀ topic, s.tapped = some topic → topic ∈ queryTypeArray

variable {s s' : Screen}

/-- The screen is loaded with the placeholder. -/
theorem refused_of_init (h : machine.init s) : Refused s := by
  obtain ⟨currentUserId, rfl⟩ := h
  exact ⟨rfl, rfl, nofun⟩

/-- A tap changes the stored topic at most. -/
theorem exists_queryTappedGesture_eq (index : ℕ) (message : String) (s : Screen) :
    ∃ stored, queryTappedGesture index message s = { s with message := stored } := by
  unfold queryTappedGesture
  split <;> exact ⟨_, rfl⟩

/-- No action of the user changes the text view. -/
theorem Refused.next (h : Refused s) {a : Action}
    (hnext : SupportChatViewController.next s a = some s') : Refused s' := by
  cases a with
  | didSelectItemAt item =>
    simp only [SupportChatViewController.next, didSelectItemAt] at hnext
    split at hnext
    · cases hnext
    · rename_i topic htopic
      obtain rfl := Option.some.inj hnext
      obtain ⟨stored, heq⟩ := exists_queryTappedGesture_eq item topic s
      rw [heq]
      have hmem : topic ∈ queryTypeArray := List.mem_of_getElem? htopic
      exact ⟨h.text, h.typed, fun _ heq => Option.some.inj heq ▸ hmem⟩
  -- the delegate refuses the edit
  | edit range replacementText edited =>
    obtain rfl := Option.some.inj hnext
    exact h
  | onClickSendButtonAction timestamp =>
    obtain rfl := Option.some.inj hnext
    exact h

/-- Send sends the empty string, or the placeholder. -/
theorem Refused.content_eq (h : Refused s) (timestamp : TimeInterval) :
    onClickSendButtonAction timestamp s = some ⟨"", s.currentUserId, "Admin Bot",
      if s.message = "" then placeholder else "", timestamp⟩ := by
  have hne : placeholder ≠ "" := by decide
  -- a stored topic stops the second branch, and the placeholder stops the first
  by_cases hmessage : s.message = "" <;>
    simp [onClickSendButtonAction, h.text, hne, hmessage]

/-- Send never sends the choice of the user. -/
theorem Refused.not_sendsChoice (h : Refused s) (timestamp : TimeInterval) :
    ¬SendsChoice s (onClickSendButtonAction timestamp s) := by
  intro hsends
  obtain ⟨hne, hchoice⟩ := hsends.content _ (h.content_eq timestamp)
  by_cases hmessage : s.message = ""
  · -- the placeholder is no topic
    simp only [hmessage, if_true, Screen.choice, h.typed] at hchoice
    exact absurd (h.tapped placeholder hchoice) (by decide)
  -- a stored topic is answered by the empty string
  · simp [hmessage] at hne

/-- The presses of Send in a run all send what the user has chosen if and only if there are none. -/
theorem sendsChoice_iff_not_sent {steps : List (Step Screen Action)} (hinit : machine.init s)
    (hrun : Run machine s steps s') :
    (∀ st ∈ steps, Serves st.pre st.action) ↔ ∀ st ∈ steps, NotSent st.action := by
  refine hrun.forall_iff (G := fun _ a => NotSent a) (refused_of_init hinit)
    (fun _ _ _ h _ hnext => h.next hnext) ?_
  intro s a s' h _
  constructor
  · rintro hserves timestamp rfl
    exact h.not_sendsChoice timestamp (hserves timestamp rfl)
  · intro hnot timestamp heq
    exact absurd heq (hnot timestamp)

/-- A topic is tapped and an edit is attempted, and nothing is sent. -/
theorem sendsChoice_iff_not_sent_tapped :
    ∃ steps s', Run machine (viewDidLoad "u") steps s' ∧ s'.choice = some "Refund Enquiry" ∧
      ∀ st ∈ steps, Serves st.pre st.action := by
  have hrun : machine.execute (viewDidLoad "u") [.didSelectItemAt 2, .edit ⟨0, 18⟩ "help" "help"] =
      some (_, _) := rfl
  refine ⟨_, _, Run.of_execute hrun, rfl, ?_⟩
  refine (sendsChoice_iff_not_sent ⟨_, rfl⟩ (Run.of_execute hrun)).mpr ?_
  simp only [List.forall_mem_cons]
  exact ⟨nofun, nofun, List.forall_mem_nil _⟩

/-- A topic is tapped and Send is pressed: an empty message is sent. -/
theorem not_sendsChoice_emptyMessage :
    ∃ steps s s', Run machine s steps s' ∧ machine.init s ∧
      ∃ st ∈ steps, st.pre.choice = some "Booking Difficulties" ∧
        onClickSendButtonAction 1 st.pre = some ⟨"", "u", "Admin Bot", "", 1⟩ ∧
        ¬Serves st.pre st.action := by
  have hrun : machine.execute (viewDidLoad "u") [.didSelectItemAt 1, .onClickSendButtonAction 1] =
      some (_, _) := rfl
  refine ⟨_, _, _, Run.of_execute hrun, ⟨_, rfl⟩, _, List.mem_of_getElem? (i := 1) rfl, rfl, ?_, ?_⟩
  · rfl
  · intro hserves
    exact ((hserves 1 rfl).content _ rfl).1 rfl

end LearnCode.SupportChatViewController
