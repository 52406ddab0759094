import Unplug.Firebase.Helper
import Unplug.Machine.Run

/-! # Sessions: who is logged in

A phone's account in FIRAuth and FirebaseHelper's `currentUser`, over launches,
logins and logouts. The account is set when a sign-in completes; the user comes
later, from a record on the server or, for a new account, from a Graph request,
and each of these answers takes its own time. FIRAuth keeps the account across
launches, the process keeps the user. -/
namespace Unplug.App
open Unplug.Store Unplug.Firebase Unplug.Machine

/-! ## The model -/

/-- Who asked `getUserWithUID:`, and so what its completion goes on to do. -/
inductive Asker
  | launch
  | login
  deriving DecidableEq

/-- An asynchronous request whose answer is to come. -/
inductive Request
  | logInWithReadPermissions
  | signInWithCredential
  | getUserWithUID (uid : String) (asker : Asker)
  | graphRequest
  deriving DecidableEq

/-- The root screen; a room setup counts as the menu it was opened from. -/
inductive Front
  | login
  | menu
  deriving DecidableEq

structure Session where
  /-- The uid of `[FIRAuth auth].currentUser`. -/
  auth : Option String
  currentUser : Option User
  front : Front
  /-- `fbLoginButton` is enabled. -/
  loginEnabled : Bool
  requests : List Request
  deriving DecidableEq

inductive SessionEvent
  | launch
  | loginTUI
  /-- Facebook's answer to request `k`: granted, or an error or a cancellation. -/
  | loggedIn (k : ℕ) (granted : Bool)
  | signedIn (k : ℕ) (uid : Option String)
  /-- The record's name and balance, or null. -/
  | gotUser (k : ℕ) (record : Option (String × ℚ))
  /-- The name in Graph's result, or an error. -/
  | gotName (k : ℕ) (name : Option String)
  | logoutTUI (status : Bool)
  | createAndJoinRoom
  | joinRoomWithRID
  deriving DecidableEq

namespace Session

/-- `application:didFinishLaunchingWithOptions:` with the account FIRAuth kept. -/
def launch (auth : Option String) : Session where
  auth := auth
  currentUser := none
  front := if auth.isSome then .menu else .login
  loginEnabled := true
  requests := match auth with
    | some uid => [.getUserWithUID uid .launch]
    | none => []

/-- The users dictionary of a create or a join, `@{currentUser.uid : …}`; a nil
key raises. -/
def usersEntry (s : Session) : Option (String × Value) :=
  s.currentUser.map fun user => (user.uid, userEntry user)

/-- `createAndJoinRoom:` or `joinRoomWithRID:` from the menu's screens. Where the
dictionary raises, the process is gone and the next thing is a launch. -/
def callFromMenu (s : Session) : Session :=
  if s.front = .menu ∧ s.usersEntry = none then launch s.auth else s

/-- The completion of `getUserWithUID:`. -/
def gotUser (s : Session) (k : ℕ) (record : Option (String × ℚ)) : Session :=
  match s.requests[k]? with
  | some (.getUserWithUID uid asker) =>
    let s := { s with requests := s.requests.eraseIdx k }
    let user := record.map fun (name, balance) => (⟨name, balance, uid⟩ : User)
    match asker, user with
    | .launch, user => { s with currentUser := user }
    | .login, some user =>
      { s with currentUser := some user, front := .menu, loginEnabled := true }
    | .login, none =>
      { s with requests := s.requests ++ [.graphRequest], front := .menu, loginEnabled := true }
  | _ => s

/-- The Graph request's handler: the new user takes the uid that FIRAuth has by
then. Without one `createUser:` raises. -/
def gotName (s : Session) (k : ℕ) (name : Option String) : Session :=
  match s.requests[k]?, name, s.auth with
  | some .graphRequest, some name, some uid =>
    { s with requests := s.requests.eraseIdx k, currentUser := some ⟨name, 0, uid⟩ }
  | some .graphRequest, some _, none => launch none
  | some .graphRequest, none, _ => { s with requests := s.requests.eraseIdx k }
  | _, _, _ => s

def step (s : Session) : SessionEvent → Session
  | .launch => launch s.auth
  | .loginTUI =>
    if s.front = .login ∧ s.loginEnabled = true then
      { s with loginEnabled := false, requests := s.requests ++ [.logInWithReadPermissions] }
    else s
  | .loggedIn k granted =>
    if s.requests[k]? = some .logInWithReadPermissions then
      if granted then
        { s with requests := s.requests.eraseIdx k ++ [.signInWithCredential] }
      else { s with requests := s.requests.eraseIdx k, loginEnabled := true }
    else s
  | .signedIn k uid =>
    if s.requests[k]? = some .signInWithCredential then
      match uid with
      | some uid => { s with
          auth := some uid
          requests := s.requests.eraseIdx k ++ [.getUserWithUID uid .login] }
      | none => { s with requests := s.requests.eraseIdx k }
    else s
  | .gotUser k record => s.gotUser k record
  | .gotName k name => s.gotName k name
  | .logoutTUI status =>
    if s.front = .menu then
      { s with auth := if status then none else s.auth, front := .login, loginEnabled := true }
    else s
  | .createAndJoinRoom => s.callFromMenu
  | .joinRoomWithRID => s.callFromMenu

end Session

/-- A phone that was last left signed in as `stored`, after a run of events. -/
def sessionRun (stored : Option String) (evs : List SessionEvent) : Session :=
  exec Session.step (Session.launch stored) evs

/-! ## The property and its condition -/

/-- The event calls `createAndJoinRoom:` or `joinRoomWithRID:`. -/
def SessionEvent.calls : SessionEvent → Bool
  | .createAndJoinRoom => true
  | .joinRoomWithRID => true
  | _ => false

/-- The users entry is of the account that is signed in. -/
def Session.Identified (s : Session) : Prop :=
  ∃ user, s.currentUser = some user ∧ s.usersEntry = some (user.uid, userEntry user) ∧
    s.auth = some user.uid

/-- The account an event answers for: the one of a record that arrived, or of a
name. A null record at launch answers for nobody, and so does a new process. -/
def Session.answer (s : Session) : SessionEvent → Option (Option String)
  | .launch => some none
  | .gotUser k record => match s.requests[k]?, record with
    | some (.getUserWithUID uid _), some _ => some (some uid)
    | some (.getUserWithUID _ .launch), none => some none
    | _, _ => none
  | .gotName k (some _) => if s.requests[k]? = some .graphRequest then some s.auth else none
  | _ => none

/-- The account of the run's last answer. -/
def lastAnswer (stored : Option String) (evs : List SessionEvent) : Option String :=
  ((outputs Session.step Session.answer (Session.launch stored) evs).getLast?).getD none

/-- An answer sets the user, and nothing else does. -/
theorem currentUser_step (s : Session) (e : SessionEvent) :
    (s.step e).currentUser.map (·.uid) = (s.answer e).getD (s.currentUser.map (·.uid)) := by
  have hcall : s.callFromMenu.currentUser.map (·.uid) = s.currentUser.map (·.uid) := by
    unfold Session.callFromMenu
    split
    · rename_i h
      have hnone : s.currentUser = none := by simpa [Session.usersEntry] using h.2
      rw [hnone]; rfl
    · rfl
  cases e with
  | launch => rfl
  | loginTUI => simp only [Session.step, Session.answer]; split <;> rfl
  | loggedIn k granted =>
    simp only [Session.step, Session.answer]
    split
    · split <;> rfl
    · rfl
  | signedIn k uid =>
    simp only [Session.step, Session.answer]
    split
    · cases uid <;> rfl
    · rfl
  | gotUser k record =>
    simp only [Session.step, Session.gotUser, Session.answer]
    cases s.requests[k]? with
    | none => rfl
    | some request =>
      cases request with
      | getUserWithUID uid asker => cases asker <;> cases record <;> rfl
      | _ => cases record <;> rfl
  | gotName k name =>
    simp only [Session.step, Session.gotName]
    cases name with
    | none =>
      cases s.requests[k]? with
      | none => rfl
      | some request => cases request <;> rfl
    | some name =>
      simp only [Session.answer]
      cases s.requests[k]? with
      | none => rfl
      | some request =>
        cases request with
        | graphRequest => cases s.auth <;> rfl
        | _ => rfl
  | logoutTUI status => simp only [Session.step, Session.answer]; split <;> rfl
  | createAndJoinRoom => exact hcall
  | joinRoomWithRID => exact hcall

theorem currentUser_run (stored : Option String) (evs : List SessionEvent) :
    (sessionRun stored evs).currentUser.map (·.uid) = lastAnswer stored evs :=
  register_exec (r := fun s : Session => s.currentUser.map (·.uid)) currentUser_step evs

theorem identified_iff (s : Session) :
    s.Identified ↔ ∃ uid, s.auth = some uid ∧ s.currentUser.map (·.uid) = some uid := by
  constructor
  · intro hx
    obtain ⟨user, hu, -, ha⟩ := hx
    exact ⟨user.uid, ha, by rw [hu]; rfl⟩
  · intro hx
    obtain ⟨uid, ha, hu⟩ := hx
    obtain ⟨user, huser, rfl⟩ := Option.map_eq_some_iff.mp hu
    exact ⟨user, huser, by rw [Session.usersEntry, huser]; rfl, ha⟩

/-- **Session identity, exactly while the last answer is the account's own.**
Every create and join from the menu writes the entry of the account signed in
if and only if, whenever one is called, the last answer of the process was a
user's and for that account. -/
theorem calls_identified_iff (stored : Option String) (evs : List SessionEvent) :
    (∀ pre e post, evs = pre ++ e :: post → e.calls = true →
      (sessionRun stored pre).front = .menu → (sessionRun stored pre).Identified) ↔
    (∀ pre e post, evs = pre ++ e :: post → e.calls = true →
      (sessionRun stored pre).front = .menu →
      ∃ uid, (sessionRun stored pre).auth = some uid ∧ lastAnswer stored pre = some uid) := by
  have hiff : ∀ pre, (sessionRun stored pre).Identified ↔
      ∃ uid, (sessionRun stored pre).auth = some uid ∧ lastAnswer stored pre = some uid := by
    intro pre
    rw [identified_iff, currentUser_run]
  constructor
  · intro h pre e post he hc hm
    exact (hiff pre).mp (h pre e post he hc hm)
  · intro h pre e post he hc hm
    exact (hiff pre).mpr (h pre e post he hc hm)

/-- A launch with a stored session, and a scan before the user has been fetched. -/
theorem scan_before_fetch :
    ¬ ∀ pre e post, [SessionEvent.joinRoomWithRID] = pre ++ e :: post → e.calls = true →
      (sessionRun (some "uidA") pre).front = .menu →
      (sessionRun (some "uidA") pre).Identified := by
  intro h
  obtain ⟨user, hu, -⟩ := h [] .joinRoomWithRID [] rfl rfl rfl
  cases hu

/-! ## Users who wait -/

/-- The requests a session has open, in the order its screens make them: none
after the answers are in, and one before. -/
def Session.Orderly (s : Session) : Prop :=
  match s.front with
  | .menu => (s.requests = [] ∧ s.Identified) ∨
      ∃ uid, s.auth = some uid ∧
        (s.requests = [.getUserWithUID uid .launch] ∨ s.requests = [.graphRequest])
  | .login => s.requests = [] ∨
      (s.loginEnabled = false ∧
        (s.requests = [.logInWithReadPermissions] ∨ s.requests = [.signInWithCredential] ∨
          ∃ uid, s.auth = some uid ∧ s.requests = [.getUserWithUID uid .login]))

/-- The user calls and logs out with no request open, every stored account has
a record, and Graph answers with a name. -/
def Patient (s : Session) : SessionEvent → Prop
  | .createAndJoinRoom => s.requests = []
  | .joinRoomWithRID => s.requests = []
  | .logoutTUI _ => s.requests = []
  | .gotUser k record =>
    (∃ uid, s.requests[k]? = some (.getUserWithUID uid .launch)) → record ≠ none
  | .gotName _ name => name ≠ none
  | _ => True

instance (s : Session) (e : SessionEvent) : Decidable (Patient s e) :=
  match e with
  | .createAndJoinRoom => inferInstanceAs (Decidable (_ = _))
  | .joinRoomWithRID => inferInstanceAs (Decidable (_ = _))
  | .logoutTUI _ => inferInstanceAs (Decidable (_ = _))
  | .gotName _ name => inferInstanceAs (Decidable (name ≠ none))
  | .gotUser k record =>
    match h : s.requests[k]? with
    | some (.getUserWithUID uid .launch) =>
      decidable_of_iff (record ≠ none) ⟨fun hr _ => hr, fun hr => hr ⟨uid, h⟩⟩
    | some (.getUserWithUID _ .login) => .isTrue fun ⟨_, hx⟩ => by rw [h] at hx; cases hx
    | some .logInWithReadPermissions => .isTrue fun ⟨_, hx⟩ => by rw [h] at hx; cases hx
    | some .signInWithCredential => .isTrue fun ⟨_, hx⟩ => by rw [h] at hx; cases hx
    | some .graphRequest => .isTrue fun ⟨_, hx⟩ => by rw [h] at hx; cases hx
    | none => .isTrue fun ⟨_, hx⟩ => by rw [h] at hx; cases hx
  | .launch | .loginTUI | .loggedIn _ _ | .signedIn _ _ => .isTrue trivial

theorem orderly_launch (stored : Option String) : (Session.launch stored).Orderly := by
  cases stored with
  | none => exact .inl rfl
  | some uid => exact .inr ⟨uid, rfl, .inl rfl⟩

/-- One request open is the request answered. -/
theorem getElem?_one {α : Type*} {l : List α} {a b : α} {k : ℕ} (hl : l = [a])
    (hk : l[k]? = some b) : b = a ∧ l.eraseIdx k = [] := by
  subst hl
  cases k with
  | zero => simp at hk; exact ⟨hk.symm, rfl⟩
  | succ k => simp at hk

theorem Session.Orderly.callFromMenu {s : Session} (h : s.Orderly) : s.callFromMenu.Orderly := by
  unfold Session.callFromMenu
  split
  · exact orderly_launch _
  · exact h

/-- The requests a session can have open are one at a time. -/
theorem Session.Orderly.one {s : Session} (h : s.Orderly) {k : ℕ} {r : Request}
    (hk : s.requests[k]? = some r) :
    s.requests.eraseIdx k = [] ∧
      ((s.front = .menu ∧ ∃ uid, s.auth = some uid ∧
          (r = .getUserWithUID uid .launch ∨ r = .graphRequest)) ∨
        (s.front = .login ∧ s.loginEnabled = false ∧
          (r = .logInWithReadPermissions ∨ r = .signInWithCredential ∨
            ∃ uid, s.auth = some uid ∧ r = .getUserWithUID uid .login))) := by
  have hne : s.requests ≠ [] := by
    intro h0; rw [h0] at hk; simp at hk
  unfold Session.Orderly at h
  cases hf : s.front with
  | menu =>
    rw [hf] at h
    rcases h with ⟨h0, -⟩ | ⟨uid, ha, hr | hr⟩
    · exact absurd h0 hne
    · obtain ⟨rfl, he⟩ := getElem?_one hr hk
      exact ⟨he, .inl ⟨rfl, uid, ha, .inl rfl⟩⟩
    · obtain ⟨rfl, he⟩ := getElem?_one hr hk
      exact ⟨he, .inl ⟨rfl, uid, ha, .inr rfl⟩⟩
  | login =>
    rw [hf] at h
    rcases h with h0 | ⟨hb, hr | hr | ⟨uid, ha, hr⟩⟩
    · exact absurd h0 hne
    · obtain ⟨rfl, he⟩ := getElem?_one hr hk
      exact ⟨he, .inr ⟨rfl, hb, .inl rfl⟩⟩
    · obtain ⟨rfl, he⟩ := getElem?_one hr hk
      exact ⟨he, .inr ⟨rfl, hb, .inr (.inl rfl)⟩⟩
    · obtain ⟨rfl, he⟩ := getElem?_one hr hk
      exact ⟨he, .inr ⟨rfl, hb, .inr (.inr ⟨uid, ha, rfl⟩)⟩⟩

theorem orderly_gotUser {s : Session} (h : s.Orderly) {k : ℕ} {record : Option (String × ℚ)}
    (hp : Patient s (.gotUser k record)) : (s.gotUser k record).Orderly := by
  unfold Session.gotUser
  cases hk : s.requests[k]? with
  | none => exact h
  | some r =>
    obtain ⟨he, hr⟩ := h.one hk
    rcases hr with ⟨hf, uid, ha, rfl | rfl⟩ | ⟨hf, hb, rfl | rfl | ⟨uid, ha, rfl⟩⟩
    · cases record with
      | none => exact absurd rfl (hp ⟨uid, hk⟩)
      | some record =>
        simp only [Session.Orderly, hf]
        exact .inl ⟨he, (identified_iff _).mpr ⟨uid, ha, rfl⟩⟩
    · exact h
    · exact h
    · exact h
    · cases record with
      | none => exact .inr ⟨uid, ha, .inr (by simp [he])⟩
      | some record => exact .inl ⟨he, (identified_iff _).mpr ⟨uid, ha, rfl⟩⟩

theorem orderly_gotName {s : Session} (h : s.Orderly) {k : ℕ} {name : Option String}
    (hp : Patient s (.gotName k name)) : (s.gotName k name).Orderly := by
  unfold Session.gotName
  cases name with
  | none => exact absurd rfl hp
  | some name =>
    cases hk : s.requests[k]? with
    | none => exact h
    | some r =>
      obtain ⟨he, hr⟩ := h.one hk
      rcases hr with ⟨hf, uid, ha, rfl | rfl⟩ | ⟨hf, hb, rfl | rfl | ⟨uid, ha, rfl⟩⟩
      · exact h
      · simp only [ha, Session.Orderly, hf]
        exact .inl ⟨he, (identified_iff _).mpr ⟨uid, rfl, rfl⟩⟩
      · exact h
      · exact h
      · exact h

theorem orderly_step {s : Session} {e : SessionEvent} (h : s.Orderly) (hp : Patient s e) :
    (s.step e).Orderly := by
  cases e with
  | launch => exact orderly_launch _
  | loginTUI =>
    simp only [Session.step]
    split
    · rename_i hl
      have h0 : s.requests = [] := by
        unfold Session.Orderly at h
        rw [hl.1] at h
        rcases h with h0 | ⟨hb, -⟩
        · exact h0
        · rw [hl.2] at hb; cases hb
      simp only [Session.Orderly, hl.1, h0]
      exact .inr ⟨trivial, .inl rfl⟩
    · exact h
  | loggedIn k granted =>
    simp only [Session.step]
    split
    · rename_i hk
      obtain ⟨he, hr⟩ := h.one hk
      rcases hr with ⟨-, uid, -, hr | hr⟩ | ⟨hf, hb, -⟩
      · cases hr
      · cases hr
      · split
        · simp only [Session.Orderly, hf, he]
          exact .inr ⟨hb, .inr (.inl rfl)⟩
        · simp only [Session.Orderly, hf]
          exact .inl he
    · exact h
  | signedIn k uid =>
    simp only [Session.step]
    split
    · rename_i hk
      obtain ⟨he, hr⟩ := h.one hk
      rcases hr with ⟨-, uid, -, hr | hr⟩ | ⟨hf, hb, -⟩
      · cases hr
      · cases hr
      · cases uid with
        | none =>
          simp only [Session.Orderly, hf]
          exact .inl he
        | some uid =>
          simp only [Session.Orderly, hf, he]
          exact .inr ⟨hb, .inr (.inr ⟨uid, rfl, rfl⟩)⟩
    · exact h
  | gotUser k record => exact orderly_gotUser h hp
  | gotName k name => exact orderly_gotName h hp
  | logoutTUI status =>
    simp only [Session.step]
    split
    · exact .inl hp
    · exact h
  | createAndJoinRoom => exact h.callFromMenu
  | joinRoomWithRID => exact h.callFromMenu

/-- **Users who wait for their answers are identified.** Where calls and logouts
wait for the open request, and every request ends with a user, every create and
join from the menu is the signed-in account's. -/
theorem patient_identified (stored : Option String) {evs : List SessionEvent}
    (h : Along Session.step Patient (Session.launch stored) evs) :
    Along Session.step (fun s e => e.calls = true → s.front = .menu → s.Identified)
      (Session.launch stored) evs := by
  refine along_iff_split.mpr fun pre e post he hc hm => ?_
  obtain ⟨hpre, hpost⟩ := Along.append.mp (he ▸ h)
  have ho := exec_invariant (orderly_launch stored) (fun s e => orderly_step) hpre
  have hp := hpost.1
  have h0 : (exec Session.step (Session.launch stored) pre).requests = [] := by
    cases e <;> first | exact hp | cases hc
  unfold Session.Orderly at ho
  rw [hm] at ho
  rcases ho with ⟨-, hi⟩ | ⟨uid, -, hr | hr⟩
  · exact hi
  · rw [h0] at hr; cases hr
  · rw [h0] at hr; cases hr

end Unplug.App
