import LearnCode.APIManager.MessageManager
import LearnCode.Library.Transition

/-!
# The message composer

`ConversationViewController` reads the text field when a send starts and empties it when some
send completes, whatever its result and whatever has been typed or sent meanwhile. The composer
neither loses nor repeats a message in every run in which no text is sent again before its
send completes, no send of a text fails, and no completion comes after the user has typed
another text.

## Main definitions

* `Composer` and `Action`: the field, the sends that are pending and those that have been
  stored, with what can happen next;
* `machine`: the composer as a state machine;
* `Careful`: what the composer has to achieve, step by step;
* `Undisturbed`: the condition on the presses and the completions.

## Main results

* `keepsText_iff`: what a completion does to the field;
* `careful_of_undisturbed`: every run that meets the condition loses and repeats nothing.
-/

namespace LearnCode.Composing

open Transition

/-- A message that has been sent. -/
structure Send where
  /-- The key drawn for the message. -/
  autoId : String
  /-- The message. -/
  message : MessageModel
  /-- History: the number of edits of the field before the press. Between two edits the field
  holds one composition. -/
  composition : ℕ

/-- The composer with what has been sent from it. -/
structure Composer where
  /-- The text of `messageTextField`. -/
  messageTextField : String
  /-- The sends whose completion is pending. -/
  sends : List Send
  /-- History: the number of edits by the user. -/
  edits : ℕ
  /-- History: the sends that completed without an error, and so are stored in the thread. -/
  stored : List Send

/-- What happens next. The key of a message and the time are arguments of the press. -/
inductive Action : Type where
  /-- `textView(_:shouldChangeTextIn:replacementText:)`; the field would hold `changed` after
  the change. -/
  | enter (replacementText changed autoId : String) (timestamp : TimeInterval)
  /-- `onClickSendAction`. -/
  | sendAction (autoId : String) (timestamp : TimeInterval)
  /-- A pending send completes. -/
  | completion (index : ℕ) (error : Option NSError)

/-- `handleSendMessage`, if the key of the thread is legal. -/
def handleSendMessage (currentUser : Option AuthUser) (receiverId autoId : String)
    (timestamp : TimeInterval) (s : Composer) : Option Composer :=
  match currentUser with
  | none => some s
  | some user =>
    let message : MessageModel := ⟨"", user.uid, receiverId, s.messageTextField, timestamp⟩
    let body : Prog (Option NSError) :=
      MessageManager.sendMessagesToUser autoId message fun error => .complete error .done
    match body.issued with
    | [] => none
    | _ :: _ => some { s with sends := s.sends ++ [⟨autoId, message, s.edits⟩] }

/-- The closure that `handleSendMessage` gives to the manager. The error is only printed. -/
def sendCompleted (s : Composer) (_error : Option NSError) : Composer :=
  { s with messageTextField := "" }

/-- The composer after an action, if it is possible. -/
def next (currentUser : Option AuthUser) (receiverId : String) (s : Composer) :
    Action → Option Composer
  | .enter replacementText changed autoId timestamp =>
    if replacementText = "\n" then
      -- the line break is not inserted
      handleSendMessage currentUser receiverId autoId timestamp s
    else some { s with messageTextField := changed, edits := s.edits + 1 }
  | .sendAction autoId timestamp =>
    handleSendMessage currentUser receiverId autoId timestamp s
  | .completion index error =>
    match s.sends[index]? with
    | none => none
    | some send =>
      let s := { s with sends := s.sends.eraseIdx index }
      match error with
      | none => some (sendCompleted { s with stored := s.stored ++ [send] } none)
      | some error => some (sendCompleted s (some error))

/-- The composer of a chat screen, from its opening on. -/
def machine (currentUser : Option AuthUser) (receiverId : String) :
    Machine Composer Action where
  init s := s.sends = [] ∧ s.edits = 0 ∧ s.stored = []
  next := next currentUser receiverId

/-! ## The requirement -/

/-- Two sends do not carry one text of one composition. The empty text is not composed. -/
def Distinct (send send' : Send) : Prop :=
  send.message.content ≠ "" → send'.message.content ≠ "" →
    send.composition ≠ send'.composition

/-- What a completion leaves in the field. -/
structure KeepsText (send : Send) (error : Option NSError) (before after : Composer) :
    Prop where
  /-- After an error the text of the send is still in the field. -/
  failed : error ≠ none → contains after.messageTextField send.message.content = true
  /-- What the user has typed since the press stays. -/
  typed : send.composition ≠ before.edits → after.messageTextField = before.messageTextField

/-- A step stores no text of a composition that has been stored, and erases a text only when
the send of this text has succeeded. -/
structure Careful (st : Step Composer Action) : Prop where
  /-- No text is stored twice for one composition. -/
  storedOnce : st.post.stored.Pairwise Distinct
  /-- A completion keeps what it must not erase. -/
  keepsText : ∀ index error send, st.action = .completion index error →
    st.pre.sends[index]? = some send → KeepsText send error st.pre st.post

/-! ## The condition -/

/-- No send of the present text is pending. -/
def Unsent (s : Composer) : Prop :=
  s.messageTextField ≠ "" → ∀ send ∈ s.sends, send.composition ≠ s.edits

/-- The send succeeded or was empty; and if the field has been edited since the press, it is
empty. -/
def Erasable (send : Send) (error : Option NSError) (s : Composer) : Prop :=
  (error ≠ none → send.message.content = "") ∧
    (send.composition ≠ s.edits → s.messageTextField = "")

/-- A text is not sent again while its send is pending, and a completion comes only when the
field may be emptied. -/
def Undisturbed (s : Composer) : Action → Prop
  | .enter replacementText _ _ _ => replacementText = "\n" → Unsent s
  | .sendAction _ _ => Unsent s
  | .completion index error => ∀ send, s.sends[index]? = some send → Erasable send error s

/-! ## What the handlers do -/

variable {currentUser : Option AuthUser} {receiverId : String} {s s' : Composer}

/-- A press does nothing, or adds a send of the present text. -/
theorem handleSendMessage_cases {autoId : String} {timestamp : TimeInterval}
    (h : handleSendMessage currentUser receiverId autoId timestamp s = some s') :
    s' = s ∨ ∃ send : Send, send.message.content = s.messageTextField ∧
      send.composition = s.edits ∧ s' = { s with sends := s.sends ++ [send] } := by
  unfold handleSendMessage at h
  split at h
  · exact .inl (Option.some.inj h).symm
  · simp only at h
    split at h
    · cases h
    · exact .inr ⟨⟨autoId, _, s.edits⟩, rfl, rfl, (Option.some.inj h).symm⟩

/-- A completion takes its send from the pending ones, stores it unless there is an error, and
empties the field. -/
theorem next_completion {index : ℕ} {error : Option NSError} {send : Send}
    (hsend : s.sends[index]? = some send) :
    next currentUser receiverId s (.completion index error) = some
      { s with
        messageTextField := ""
        sends := s.sends.eraseIdx index
        stored := s.stored ++ if error = none then [send] else [] } := by
  simp only [next, hsend]
  cases error with
  | none => rfl
  | some error => simp [sendCompleted]

/-- A completion keeps what it must not erase exactly when the field may be emptied. -/
theorem keepsText_iff {send : Send} {error : Option NSError}
    (hcleared : s'.messageTextField = "") :
    KeepsText send error s s' ↔ Erasable send error s := by
  constructor
  · rintro ⟨hfailed, htyped⟩
    rw [hcleared] at hfailed htyped
    exact ⟨fun herror => contains_empty.mp (hfailed herror), fun hne => (htyped hne).symm⟩
  · rintro ⟨hfailed, htyped⟩
    refine ⟨fun herror => ?_, fun hne => ?_⟩
    · rw [hcleared, contains_empty, hfailed herror]
    · rw [hcleared, htyped hne]

/-! ## What every undisturbed run keeps -/

/-- The sends of one composition, pending or stored, carry one text at most, and the text in
the field has not been stored. -/
structure Tidy (s : Composer) : Prop where
  /-- The composition of a send is the present one or an earlier one. -/
  earlier : ∀ send ∈ s.sends ++ s.stored, send.composition ≤ s.edits
  /-- No text has been sent twice in one composition. -/
  distinct : (s.sends ++ s.stored).Pairwise Distinct
  /-- A text in the field has not been stored in the present composition. -/
  unstored : s.messageTextField ≠ "" → ∀ send ∈ s.stored, send.composition ≠ s.edits

theorem Distinct.symm {send send' : Send} (h : Distinct send send') : Distinct send' send :=
  fun hsend' hsend heq => h hsend hsend' heq.symm

namespace Tidy

/-- An edit starts a new composition. -/
theorem edit (h : Tidy s) (changed : String) :
    Tidy { s with messageTextField := changed, edits := s.edits + 1 } where
  earlier send hsend := Nat.le_succ_of_le (h.earlier send hsend)
  distinct := h.distinct
  unstored _ send hsend := by
    have hle := h.earlier send (List.mem_append_right _ hsend)
    exact Nat.ne_of_lt (Nat.lt_succ_of_le hle)

/-- A press adds a send that differs from all others, if the present text is not pending. -/
theorem press (h : Tidy s) (hunsent : Unsent s) {send : Send}
    (hcontent : send.message.content = s.messageTextField)
    (hcomposition : send.composition = s.edits) :
    Tidy { s with sends := s.sends ++ [send] } := by
  have hperm : (s.sends ++ [send] ++ s.stored).Perm (send :: (s.sends ++ s.stored)) := by
    rw [List.append_assoc]
    exact List.perm_middle
  refine ⟨fun other hother => ?_, ?_, h.unstored⟩
  -- a send of the same composition would be pending or stored, and neither is possible
  · rcases List.mem_cons.mp (hperm.mem_iff.mp hother) with rfl | hother
    · exact hcomposition.le
    · exact h.earlier other hother
  · refine (hperm.pairwise_iff Distinct.symm).mpr (List.pairwise_cons.mpr ⟨?_, h.distinct⟩)
    intro other hother hsend _ heq
    rw [hcontent] at hsend
    rw [hcomposition] at heq
    rcases List.mem_append.mp hother with hother | hother
    · exact hunsent hsend other hother heq.symm
    · exact h.unstored hsend other hother heq.symm

/-- A completion takes a send from the pending ones to the stored ones, or drops it. -/
theorem completion (h : Tidy s) {index : ℕ} {send : Send} (error : Option NSError)
    (hsend : s.sends[index]? = some send) :
    Tidy { s with
      messageTextField := ""
      sends := s.sends.eraseIdx index
      stored := s.stored ++ if error = none then [send] else [] } := by
  obtain ⟨hlt, rfl⟩ := List.getElem?_eq_some_iff.mp hsend
  -- the send moves from the pending ones to the stored ones, or is left out
  have hperm : (s.sends.eraseIdx index ++ (s.stored ++ [s.sends[index]])).Perm
      (s.sends ++ s.stored) := by
    rw [← List.append_assoc]
    refine List.perm_append_comm.trans ?_
    exact (List.getElem_cons_eraseIdx_perm hlt).append_right s.stored
  have hsublist : (s.sends.eraseIdx index ++ (s.stored ++
      if error = none then [s.sends[index]] else [])).Sublist
      (s.sends.eraseIdx index ++ (s.stored ++ [s.sends[index]])) := by
    refine (List.Sublist.refl _).append ((List.Sublist.refl _).append ?_)
    split <;> simp
  refine ⟨fun other hother => ?_, ?_, fun hne => absurd rfl hne⟩
  · exact h.earlier other (hperm.mem_iff.mp (hsublist.mem hother))
  · exact ((hperm.pairwise_iff Distinct.symm).mpr h.distinct).sublist hsublist

/-- Each step that meets the condition keeps the sends tidy. -/
theorem next (h : Tidy s) {a : Action} (ha : Undisturbed s a)
    (hnext : next currentUser receiverId s a = some s') : Tidy s' := by
  -- a press either sends nothing or adds the send that it makes
  have hpress {autoId : String} {timestamp : TimeInterval} (hunsent : Unsent s)
      (heq : handleSendMessage currentUser receiverId autoId timestamp s = some s') :
      Tidy s' := by
    obtain rfl | ⟨send, hcontent, hcomposition, rfl⟩ := handleSendMessage_cases heq
    · exact h
    · exact h.press hunsent hcontent hcomposition
  cases a with
  | enter replacementText changed autoId timestamp =>
    simp only [Composing.next] at hnext
    split_ifs at hnext with hreturn
    · exact hpress (ha hreturn) hnext
    · obtain rfl := Option.some.inj hnext
      exact h.edit changed
  | sendAction autoId timestamp => exact hpress ha hnext
  | completion index error =>
    cases hsend : s.sends[index]? with
    | none => simp [Composing.next, hsend] at hnext
    | some send =>
      rw [next_completion hsend] at hnext
      obtain rfl := Option.some.inj hnext
      exact h.completion error hsend

/-- A step that meets the condition is careful. -/
theorem careful (h : Tidy s) {a : Action} (ha : Undisturbed s a)
    (hnext : Composing.next currentUser receiverId s a = some s') : Careful ⟨s, a, s'⟩ where
  storedOnce := (List.pairwise_append.mp (h.next ha hnext).distinct).2.1
  keepsText index error send heq hsend := by
    obtain rfl : a = .completion index error := heq
    have hsend : s.sends[index]? = some send := hsend
    rw [next_completion hsend] at hnext
    have hcleared : s'.messageTextField = "" := by rw [← Option.some.inj hnext]
    exact (keepsText_iff hcleared).mpr (ha send hsend)

end Tidy

/-- In a run that meets the condition, no text is stored twice for one composition, and no
completion erases a text but the one whose send has succeeded. -/
theorem careful_of_undisturbed {steps : List (Step Composer Action)}
    (hinit : (machine currentUser receiverId).init s)
    (hrun : Run (machine currentUser receiverId) s steps s')
    (hsteps : ∀ st ∈ steps, Undisturbed st.pre st.action) : ∀ st ∈ steps, Careful st := by
  have htidy : Tidy s := by
    obtain ⟨hsends, -, hstored⟩ := hinit
    exact ⟨by simp [hsends, hstored], by simp [hsends, hstored], by simp [hstored]⟩
  have hall := (hrun.invariant htidy (fun _ _ _ h ha hnext => h.next ha hnext) hsteps).2
  exact fun st hst => (hall st hst).1.careful (hsteps st hst) (hrun.next_of_mem hst)

/-! ## Runs of two users -/

/-- The composer of `a` for messages to `b`, as it is opened. -/
def opened : Composer := ⟨"", [], 0, []⟩

/-- Two messages are sent one after the other, the first one by the return key. -/
theorem careful_of_undisturbed_inTurn :
    ∃ steps s', Run (machine (some ⟨"a", none⟩) "b") opened steps s' ∧
      s'.stored.map (fun send => send.message.content) = ["hi", "there"] ∧
      ∀ st ∈ steps, Careful st := by
  have hrun : (machine (some ⟨"a", none⟩) "b").execute opened
      [.enter "hi" "hi" "m" 1, .enter "\n" "" "m" 1, .completion 0 none,
        .enter "there" "there" "n" 2, .sendAction "n" 2, .completion 0 none] =
      some (_, _) := rfl
  refine ⟨_, _, Run.of_execute hrun, rfl, ?_⟩
  refine careful_of_undisturbed ⟨rfl, rfl, rfl⟩ (Run.of_execute hrun) ?_
  -- each press finds nothing pending, and each completion an unedited field
  simp only [List.forall_mem_cons]
  have hunsent {s : Composer} (h : s.sends = []) : Unsent s := by simp [Unsent, h]
  have herasable {s : Composer} {send : Send} (h : s.sends = [send])
      (heq : send.composition = s.edits) : Undisturbed s (.completion 0 none) := by
    intro send' hsend'
    obtain rfl : send = send' := by simpa [h] using hsend'
    exact ⟨nofun, fun hne => absurd heq hne⟩
  exact ⟨fun h => absurd h (by decide), fun _ => hunsent rfl, herasable rfl rfl,
    fun h => absurd h (by decide), hunsent rfl, herasable rfl rfl, List.forall_mem_nil _⟩

/-- Three runs from the opened composer. A message that is sent by two presses is stored twice;
a message whose send fails is erased; and so is a text that is typed before the completion. -/
theorem not_careful_of_disturbed :
    (∃ steps s', Run (machine (some ⟨"a", none⟩) "b") opened steps s' ∧
      s'.stored.map (fun send => send.message.content) = ["hi", "hi"] ∧
      ¬∀ st ∈ steps, Careful st) ∧
    (∃ steps s', Run (machine (some ⟨"a", none⟩) "b") opened steps s' ∧
      s'.stored = [] ∧ s'.messageTextField = "" ∧ ¬∀ st ∈ steps, Careful st) ∧
    ∃ steps s', Run (machine (some ⟨"a", none⟩) "b") opened steps s' ∧
      s'.stored.map (fun send => send.message.content) = ["hi"] ∧
      s'.messageTextField = "" ∧ ¬∀ st ∈ steps, Careful st := by
  refine ⟨?_, ?_, ?_⟩
  · -- the button is pressed twice before the completion
    have hrun : (machine (some ⟨"a", none⟩) "b").execute opened
        [.enter "hi" "hi" "m" 1, .sendAction "m" 1, .sendAction "n" 2, .completion 0 none,
          .completion 0 none] = some (_, _) := rfl
    refine ⟨_, _, Run.of_execute hrun, rfl, fun h => ?_⟩
    simp only [List.forall_mem_cons] at h
    obtain ⟨-, -, -, -, hlast, -⟩ := h
    have hdistinct := (List.pairwise_cons.mp hlast.storedOnce).1 _ List.mem_cons_self
    exact hdistinct (by decide) (by decide) rfl
  · have hrun : (machine (some ⟨"a", none⟩) "b").execute opened
        [.enter "hi" "hi" "m" 1, .sendAction "m" 1, .completion 0 (some ⟨"offline"⟩)] =
        some (_, _) := rfl
    refine ⟨_, _, Run.of_execute hrun, rfl, rfl, fun h => ?_⟩
    simp only [List.forall_mem_cons] at h
    obtain ⟨-, -, hlast, -⟩ := h
    have htext := (hlast.keepsText 0 _ _ rfl rfl).failed nofun
    revert htext
    decide
  · have hrun : (machine (some ⟨"a", none⟩) "b").execute opened
        [.enter "hi" "hi" "m" 1, .sendAction "m" 1, .enter "there" "there" "m" 2,
          .completion 0 none] = some (_, _) := rfl
    refine ⟨_, _, Run.of_execute hrun, rfl, rfl, fun h => ?_⟩
    simp only [List.forall_mem_cons] at h
    obtain ⟨-, -, -, hlast, -⟩ := h
    have htext := (hlast.keepsText 0 _ _ rfl rfl).typed (by decide)
    revert htext
    decide

end LearnCode.Composing
