import LearnCode.APIManager.DatabaseManager
import LearnCode.Library.Transition

/-!
# The session gate

The screens between the start of the app and the dashboard, together with the account service.
The dashboard is entered by a sign-in that succeeds, and by the button of the verification
screen, which a sign-up shows before its account exists. A logout shows the intro screen, and
does not sign out.

## Main definitions

* `State` and `Action`: the navigation stack, the signed-in user, the callbacks that are
  pending and the requests that have been made, with what can happen next;
* `machine`: the navigation as a state machine;
* `Gated`: the dashboard is shown only to a user who has signed in since the last logout, and
  nobody is signed in after a logout;
* `Guarded`: nobody logs out, and the verification screen is left only by a signed-in user.

## Main results

* `gated_iff_guarded`: the states of a run are gated exactly when its steps are guarded.
-/

namespace LearnCode.Navigation

open Transition DatabaseManager

/-- A tab of the dashboard. -/
inductive Tab : Type where
  | homeViewController
  | feedViewController
  | profileViewController
deriving DecidableEq

/-- `viewControllers` of `MainTabController`. -/
def viewControllers : List Tab :=
  [.homeViewController, .homeViewController, .feedViewController, .homeViewController,
    .profileViewController]

/-- A screen. The dashboard is shown with one of its tabs. -/
inductive Screen : Type where
  | introViewController
  | loginViewController
  | registerViewController
  | verificationViewController
  | mainTabController (selected : Tab)
deriving DecidableEq

/-- What the last logout and the sign-ins after it have come to. -/
inductive Session : Type where
  /-- Nobody has signed in or logged out. -/
  | launched
  /-- This user has signed in since the last logout. -/
  | signedIn (user : AuthUser)
  /-- Nobody has signed in since the last logout. -/
  | loggedOut
deriving DecidableEq

/-- The navigation, the account service and the history of the session. -/
structure State where
  /-- The screens from the top down. A tab's own navigation controller continues the stack
  that its dashboard is in. -/
  stack : List Screen
  /-- `FirebaseAuth.Auth.auth().currentUser`. -/
  currentUser : Option AuthUser
  /-- The number of sign-ins whose callback is pending. -/
  signIns : ℕ
  /-- The number of account creations whose callback is pending. -/
  signUps : ℕ
  /-- History: the present session. -/
  session : Session
  /-- History: the requests of the present session, each with the user it was made as. -/
  requests : List (Option AuthUser × Request)

/-- What happens next. The texts of text fields are arguments. -/
inductive Action : Type where
  /-- `IntroViewController.onClickMoveLoginScreen`. -/
  | moveLoginScreen
  /-- `IntroViewController.onClickMoveSignupScreen`. -/
  | moveSignupScreen
  /-- `LoginViewController.onClickLoginAction`. -/
  | login (email password : Option String)
  /-- `LoginViewController.onClickSignupAction`. -/
  | loginSignup
  /-- `RegisterViewController.onClickSignupAction`. -/
  | register (userName email password mobile : Option String)
  /-- `VerificationViewController.onClickLoginAction`. -/
  | verificationLogin
  /-- A tab of the dashboard is selected. -/
  | select (index : ℕ)
  /-- `ProfileViewController.onClickLogoutAction`. -/
  | logout
  /-- The back button of a navigation controller. -/
  | back
  /-- A sign-in is answered. -/
  | signInCallback (answer : Outcome AuthUser)
  /-- An account creation is answered. -/
  | createUserCallback (answer : Outcome AuthUser)
  /-- The database is read or written by some screen or closure. -/
  | request (q : Request)

namespace State

/-- The screen on top. -/
def onScreen (s : State) : Option Screen := s.stack.head?

/-- `pushViewController`. -/
def push (s : State) (screen : Screen) : State := { s with stack := screen :: s.stack }

/-- `popViewController`, which keeps the root of the stack. -/
def pop (s : State) : State :=
  match s.stack with
  | _ :: screen :: stack => { s with stack := screen :: stack }
  | _ => s

/-- `SharedInstance.moveToDashboard`: a dashboard becomes the root. -/
def moveToDashboard (s : State) : State :=
  { s with stack := [.mainTabController .homeViewController] }

/-- The account service answers a sign-in or an account creation. Success makes the user the
current one. -/
def authenticate (s : State) (answer : Outcome AuthUser) : State :=
  match answer with
  | ⟨some user, none⟩ =>
    { s with currentUser := some user, session := .signedIn user, requests := [] }
  | _ => s

end State

/-- The closure of `onClickLoginAction` on the login screen; a failure shows an alert. -/
def signInCompleted (s : State) (answer : Outcome AuthUser) : State :=
  match answer with
  | ⟨some _, none⟩ => s.moveToDashboard
  | _ => s

/-- The state after an action, if it is possible. -/
def next (s : State) : Action → Option State
  | .moveLoginScreen =>
    if s.onScreen = some .introViewController then some (s.push .loginViewController) else none
  | .moveSignupScreen =>
    if s.onScreen = some .introViewController then some (s.push .registerViewController)
    else none
  | .login email password =>
    if s.onScreen = some .loginViewController then
      if email = some "" then some s
      else if password = some "" then some s
      else some { s with signIns := s.signIns + 1 }
    else none
  | .loginSignup =>
    if s.onScreen = some .loginViewController then some (s.push .registerViewController)
    else none
  | .register userName email password mobile =>
    if s.onScreen = some .registerViewController then
      match userName, email, password, mobile with
      | some _, some _, some _, some _ =>
        -- the next screen does not wait for the account
        some ({ s with signUps := s.signUps + 1 }.push .verificationViewController)
      | _, _, _, _ => some s
    else none
  | .verificationLogin =>
    if s.onScreen = some .verificationViewController then
      some (s.push (.mainTabController .homeViewController))
    else none
  | .select index =>
    match s.stack, viewControllers[index]? with
    | .mainTabController _ :: stack, some tab =>
      some { s with stack := .mainTabController tab :: stack }
    | _, _ => none
  | .logout =>
    if s.onScreen = some (.mainTabController .profileViewController) then
      -- `signOut` is not called
      some { s.push .introViewController with session := .loggedOut, requests := [] }
    else none
  | .back => some s.pop
  | .signInCallback answer =>
    if s.signIns = 0 then none
    else some (signInCompleted ({ s with signIns := s.signIns - 1 }.authenticate answer) answer)
  | .createUserCallback answer =>
    if s.signUps = 0 then none
    else some ({ s with signUps := s.signUps - 1 }.authenticate answer)
  | .request q => some { s with requests := s.requests ++ [(s.currentUser, q)] }

/-- A start without a user, on the intro or the login screen. -/
def launch (screen : Screen) : State where
  stack := [screen]
  currentUser := none
  signIns := 0
  signUps := 0
  session := .launched
  requests := []

/-- The navigation of the app. -/
def machine : Machine State Action where
  init s := s = launch .introViewController ∨ s = launch .loginViewController
  next := next

/-- The dashboard belongs to a session, and no session is left after a logout. -/
structure Gated (s : State) : Prop where
  /-- The dashboard is shown to the current user, who has signed in since the last logout. -/
  dashboard : ∀ tab, s.onScreen = some (.mainTabController tab) →
    ∃ user, s.session = .signedIn user ∧ s.currentUser = some user
  /-- After a logout nobody is the current user. -/
  signedOut : s.session = .loggedOut → s.currentUser = none ∧ currentUserId s.currentUser = ""
  /-- After a logout no request is made as a user. -/
  anonymous : s.session = .loggedOut → ∀ r ∈ s.requests, r.1 = none

/-- The action is not a logout, and is not the button of the verification screen while nobody
is signed in. -/
def Guarded (s : State) (a : Action) : Prop :=
  a ≠ .logout ∧ (a = .verificationLogin → s.currentUser ≠ none)

/-- Only the two actions need care. -/
theorem guarded_of_ne {s : State} {a : Action} (hlogout : a ≠ .logout)
    (hverification : a ≠ .verificationLogin) : Guarded s a :=
  ⟨hlogout, fun heq => absurd heq hverification⟩

/-! ## What every guarded run keeps -/

/-- The current user is the one of the session, nobody has logged out, and where the stack holds
a dashboard there is a current user. -/
structure Consistent (s : State) : Prop where
  /-- The current user is the one who has signed in, if someone has. -/
  session : s.session = .launched ∧ s.currentUser = none ∨
    ∃ user, s.session = .signedIn user ∧ s.currentUser = some user
  /-- A dashboard, shown or covered, has a current user. -/
  dashboard : ∀ tab, .mainTabController tab ∈ s.stack → s.currentUser ≠ none

namespace Consistent

variable {s : State}

/-- A screen is pushed; the dashboard, by a current user. -/
theorem push (h : Consistent s) {screen : Screen}
    (hscreen : ∀ tab, screen = .mainTabController tab → s.currentUser ≠ none) :
    Consistent (s.push screen) := by
  refine ⟨h.session, fun tab htab => ?_⟩
  rcases List.mem_cons.mp htab with heq | htab
  · exact hscreen tab heq.symm
  · exact h.dashboard tab htab

theorem pop (h : Consistent s) : Consistent s.pop := by
  unfold State.pop
  split
  · -- a dashboard that is uncovered was on the stack before
    rename_i screen below stack hstack
    refine ⟨h.session, fun tab htab => h.dashboard tab ?_⟩
    rw [hstack]
    exact List.mem_cons_of_mem _ htab
  · exact h

/-- A success makes its user the current one; anything else changes nothing. -/
theorem authenticate (h : Consistent s) (answer : Outcome AuthUser) :
    Consistent (s.authenticate answer) := by
  unfold State.authenticate
  split
  · exact ⟨.inr ⟨_, rfl, rfl⟩, fun _ _ => Option.some_ne_none _⟩
  · exact h

/-- The dashboard that a sign-in opens has a current user. -/
theorem signInCompleted (h : Consistent s) (answer : Outcome AuthUser) :
    Consistent (signInCompleted (s.authenticate answer) answer) := by
  have hauth := h.authenticate answer
  unfold Navigation.signInCompleted
  split
  · -- the old stack is dropped
    exact ⟨hauth.session, fun _ _ => Option.some_ne_none _⟩
  · exact hauth

/-- Another tab is selected by the user of the dashboard. -/
theorem select (h : Consistent s) {tab tab' : Tab} {stack : List Screen}
    (hstack : s.stack = .mainTabController tab :: stack) :
    Consistent { s with stack := .mainTabController tab' :: stack } := by
  have huser : s.currentUser ≠ none := h.dashboard tab (by simp [hstack])
  exact ⟨h.session, fun _ _ => huser⟩

/-- A consistent state is gated. -/
theorem gated (h : Consistent s) : Gated s := by
  have hsession : s.session ≠ .loggedOut := by
    rcases h.session with ⟨heq, -⟩ | ⟨user, heq, -⟩ <;> simp [heq]
  refine ⟨fun tab htab => ?_, fun heq => absurd heq hsession, fun heq => absurd heq hsession⟩
  have huser := h.dashboard tab (List.mem_of_mem_head? htab)
  rcases h.session with ⟨-, hnone⟩ | hsigned
  · exact absurd hnone huser
  · exact hsigned

/-- A guarded step leads from a consistent state to a consistent state. -/
theorem next (h : Consistent s) {a : Action} {s' : State} (ha : Guarded s a)
    (hnext : next s a = some s') : Consistent s' := by
  cases a with
  | moveLoginScreen =>
    obtain ⟨-, ⟨⟩⟩ := Option.ite_none_right_eq_some.mp hnext
    exact h.push nofun
  | moveSignupScreen =>
    obtain ⟨-, ⟨⟩⟩ := Option.ite_none_right_eq_some.mp hnext
    exact h.push nofun
  | login email password =>
    obtain ⟨-, hnext⟩ := Option.ite_none_right_eq_some.mp hnext
    split_ifs at hnext <;> obtain rfl := Option.some.inj hnext
    · exact h
    · exact h
    · exact ⟨h.session, h.dashboard⟩
  | loginSignup =>
    obtain ⟨-, ⟨⟩⟩ := Option.ite_none_right_eq_some.mp hnext
    exact h.push nofun
  | register userName email password mobile =>
    -- the screen that is pushed is not the dashboard
    obtain ⟨-, hnext⟩ := Option.ite_none_right_eq_some.mp hnext
    split at hnext <;> obtain rfl := Option.some.inj hnext
    · exact push (s := { s with signUps := s.signUps + 1 }) ⟨h.session, h.dashboard⟩ nofun
    · exact h
  | verificationLogin =>
    -- the dashboard is pushed here, and the guard asks for a user
    obtain ⟨-, ⟨⟩⟩ := Option.ite_none_right_eq_some.mp hnext
    exact h.push fun _ _ => ha.2 rfl
  | select index =>
    simp only [Navigation.next] at hnext
    split at hnext
    · rename_i hstack _
      obtain rfl := Option.some.inj hnext
      exact h.select hstack
    · cases hnext
  -- a logout leaves the user signed in, so the guard excludes it
  | logout => exact absurd rfl ha.1
  | back =>
    obtain rfl := Option.some.inj hnext
    exact h.pop
  | signInCallback answer =>
    obtain ⟨-, ⟨⟩⟩ := Option.ite_none_left_eq_some.mp hnext
    exact signInCompleted (s := { s with signIns := s.signIns - 1 })
      ⟨h.session, h.dashboard⟩ answer
  | createUserCallback answer =>
    obtain ⟨-, ⟨⟩⟩ := Option.ite_none_left_eq_some.mp hnext
    exact authenticate (s := { s with signUps := s.signUps - 1 })
      ⟨h.session, h.dashboard⟩ answer
  | request q =>
    obtain rfl := Option.some.inj hnext
    exact ⟨h.session, h.dashboard⟩

/-- A step from a consistent state leads to a gated state exactly when it is guarded. -/
theorem gated_next_iff (h : Consistent s) {a : Action} {s' : State}
    (hnext : Navigation.next s a = some s') : Gated s' ↔ Guarded s a := by
  refine ⟨fun hgated => ⟨?_, ?_⟩, fun ha => (h.next ha hnext).gated⟩
  · -- the user of the dashboard is still the current one after the logout
    rintro rfl
    obtain ⟨hscreen, ⟨⟩⟩ := Option.ite_none_right_eq_some.mp hnext
    have huser := h.dashboard _ (List.mem_of_mem_head? hscreen)
    exact huser (hgated.signedOut rfl).1
  · -- the dashboard is opened without a current user
    rintro rfl hnone
    obtain ⟨-, ⟨⟩⟩ := Option.ite_none_right_eq_some.mp hnext
    obtain ⟨user, -, huser⟩ := hgated.dashboard _ rfl
    rw [State.push, hnone] at huser
    cases huser

end Consistent

/-- The app starts consistent. -/
theorem consistent_of_init {s : State} (h : machine.init s) : Consistent s := by
  rcases h with rfl | rfl <;> exact ⟨.inl ⟨rfl, rfl⟩, by simp [launch]⟩

/-- The states that a run reaches are all gated exactly when its steps are all guarded. -/
theorem gated_iff_guarded {s s' : State} {steps : List (Step State Action)}
    (hinit : machine.init s) (hrun : Run machine s steps s') :
    (∀ st ∈ steps, Gated st.post) ↔ ∀ st ∈ steps, Guarded st.pre st.action :=
  hrun.forall_iff (consistent_of_init hinit) (fun _ _ _ h ha hnext => h.next ha hnext)
    (fun _ _ _ h hnext => h.gated_next_iff hnext)

/-- A user signs in, and visits the profile. -/
theorem gated_iff_guarded_signIn :
    ∃ steps s', Run machine (launch .loginViewController) steps s' ∧ steps.length = 3 ∧
      ∀ st ∈ steps, Gated st.post := by
  have hrun : machine.execute (launch .loginViewController)
      [.login (some "a@b.c") (some "secret"), .signInCallback ⟨some ⟨"u", some "a@b.c"⟩, none⟩,
        .select 4] = some (_, _) := rfl
  refine ⟨_, _, Run.of_execute hrun, rfl, ?_⟩
  refine (gated_iff_guarded (.inr rfl) (Run.of_execute hrun)).mpr ?_
  simp only [List.forall_mem_cons]
  exact ⟨guarded_of_ne nofun nofun, guarded_of_ne nofun nofun, guarded_of_ne nofun nofun,
    List.forall_mem_nil _⟩

/-- Two runs with a state that is not gated. A sign-up opens the dashboard before its account
exists; and after a sign-in and a logout the user is still the current one. -/
theorem not_gated_signUp_and_logout :
    (∃ steps s', Run machine (launch .introViewController) steps s' ∧
      s'.onScreen = some (.mainTabController .homeViewController) ∧ s'.currentUser = none ∧
      ¬Gated s') ∧
    ∃ steps s', Run machine (launch .loginViewController) steps s' ∧
      s'.session = .loggedOut ∧ s'.currentUser = some ⟨"u", some "a@b.c"⟩ ∧ ¬Gated s' := by
  constructor
  · -- the dashboard is shown before the account is created
    have hrun : machine.execute (launch .introViewController)
        [.moveSignupScreen, .register (some "a") (some "a@b.c") (some "secret") (some "1"),
          .verificationLogin] = some (_, _) := rfl
    refine ⟨_, _, Run.of_execute hrun, rfl, rfl, fun h => ?_⟩
    obtain ⟨user, -, huser⟩ := h.dashboard _ rfl
    cases huser
  · have hrun : machine.execute (launch .loginViewController)
        [.login (some "a@b.c") (some "secret"), .signInCallback ⟨some ⟨"u", some "a@b.c"⟩, none⟩,
          .select 4, .logout] =
        some (_, ⟨[.introViewController, .mainTabController .profileViewController],
          some ⟨"u", some "a@b.c"⟩, 0, 0, .loggedOut, []⟩) := rfl
    refine ⟨_, _, Run.of_execute hrun, rfl, rfl, fun h => ?_⟩
    cases (h.signedOut rfl).1

end LearnCode.Navigation
