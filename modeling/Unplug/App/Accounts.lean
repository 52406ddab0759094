import Unplug.App.Session
import Unplug.Firebase.Snapshots
import Unplug.Store.LeafTree

/-! # Accounts and their records

Phones sign in with accounts of Facebook, and the first sign-in of an account writes its
record under `users`. The Graph request that fetches the name carries the token that the
process held when it was made, and its handler takes the uid of the account that is
signed in when it runs. So a record is the account's own exactly as long as these agree. -/
namespace Unplug.App
open Unplug.Store Unplug.Firebase Unplug.Machine RealtimeDatabase

/-! ## The model -/

/-- The accounts of Facebook: a name for each, and a uid of FIRAuth, which is one key. -/
structure Provider (α : Type*) where
  name : α → String
  uid : α → String
  uid_injective : ∀ {a b}, uid a = uid b → a = b
  uid_key : ∀ a, IsKey (uid a)

/-- A request whose answer is to come, with the account whose token it carries. -/
inductive AccountRequest (α : Type*)
  | logInWithReadPermissions
  | signInWithCredential (account : α)
  | getUserWithUID (uid : String) (asker : Asker)
  | graphRequest (token : Option α)
  deriving DecidableEq

structure Phone (α : Type*) where
  /-- The account of `[FIRAuth auth].currentUser`. -/
  auth : Option α
  /-- The account of `[FBSDKAccessToken currentAccessToken]`. -/
  currentAccessToken : Option α
  currentUser : Option UserProperties
  front : Front
  loginEnabled : Bool
  requests : List (AccountRequest α)
  /-- The users that `createUser:` has set and the server has not. -/
  outbox : List User
  deriving DecidableEq

inductive AccountEvent (α : Type*)
  | launch
  | loginTUI
  /-- Facebook grants request `k` the token of an account, or refuses. -/
  | loggedIn (k : ℕ) (account : Option α)
  | signedIn (k : ℕ) (ok : Bool)
  /-- The snapshot is cut from the server's state number `i`. -/
  | gotUser (k i : ℕ) (overlaid : Bool)
  | gotName (k : ℕ) (ok : Bool)
  | logoutTUI (status : Bool)
  | createAndJoinRoom
  | joinRoomWithRID
  /-- The server takes the oldest user from the outbox, or refuses it. -/
  | deliverUser (accepted : Bool)
  deriving DecidableEq

namespace Phone
variable {α δ : Type*} [RealtimeDatabase δ]

/-- A new process: the account and the token are kept, what the earlier one had sent and the
server had not taken is lost. -/
def launch (P : Provider α) (auth currentAccessToken : Option α) : Phone α where
  auth := auth
  currentAccessToken := currentAccessToken
  currentUser := none
  front := if auth.isSome then .menu else .login
  loginEnabled := true
  requests := match auth with
    | some account => [.getUserWithUID (P.uid account) .launch]
    | none => []
  outbox := []

/-- `@{currentUser.uid : @{@"name" : currentUser.name, @"time" : @0}}`, which raises for
a nil uid or name. -/
def usersEntry (p : Phone α) : Option (String × Value) :=
  match p.currentUser with
  | some ⟨some name, _, some uid⟩ => some (uid, .dict [("name", .str name), ("time", .num 0)])
  | _ => none

def callFromMenu (P : Provider α) (p : Phone α) : Phone α :=
  if p.front = .menu ∧ p.usersEntry = none then launch P p.auth p.currentAccessToken else p

/-- The tree a snapshot is cut from. -/
def view (history : List δ) (p : Phone α) (i : ℕ) (overlaid : Bool) : Option δ :=
  (history[i]?).map fun db => if overlaid then p.outbox.foldl createUser db else db

/-- The completion of `getUserWithUID:`. -/
def gotUser (p : Phone α) (k : ℕ) (db : δ) : Phone α :=
  match p.requests[k]? with
  | some (.getUserWithUID uid asker) =>
    let p := { p with requests := p.requests.eraseIdx k }
    match asker, getUserWithUID db uid with
    | .launch, user => { p with currentUser := user }
    | .login, some user => { p with currentUser := some user, front := .menu, loginEnabled := true }
    | .login, none => { p with
        requests := p.requests ++ [.graphRequest p.currentAccessToken]
        front := .menu
        loginEnabled := true }
  | _ => p

/-- The Graph request's handler. A request without a token is answered by an error, and
`createUser:` raises where nobody is signed in. -/
def gotName (P : Provider α) (p : Phone α) (k : ℕ) (ok : Bool) : Phone α :=
  match p.requests[k]? with
  | some (.graphRequest token) =>
    match token, ok, p.auth with
    | some source, true, some account => { p with
        requests := p.requests.eraseIdx k
        outbox := p.outbox ++ [⟨P.name source, 0, P.uid account⟩]
        currentUser := some ⟨some (P.name source), some 0, some (P.uid account)⟩ }
    | some _, true, none => launch P none p.currentAccessToken
    | _, _, _ => { p with requests := p.requests.eraseIdx k }
  | _ => p

def step (P : Provider α) (history : List δ) (p : Phone α) : AccountEvent α → Phone α
  | .launch => launch P p.auth p.currentAccessToken
  | .loginTUI =>
    if p.front = .login ∧ p.loginEnabled = true then
      { p with loginEnabled := false, requests := p.requests ++ [.logInWithReadPermissions] }
    else p
  | .loggedIn k account => match p.requests[k]? with
    | some .logInWithReadPermissions => match account with
      | some account => { p with
          currentAccessToken := some account
          requests := p.requests.eraseIdx k ++ [.signInWithCredential account] }
      | none => { p with requests := p.requests.eraseIdx k, loginEnabled := true }
    | _ => p
  | .signedIn k ok => match p.requests[k]? with
    | some (.signInWithCredential account) =>
      if ok then { p with
        auth := some account
        requests := p.requests.eraseIdx k ++ [.getUserWithUID (P.uid account) .login] }
      else { p with requests := p.requests.eraseIdx k }
    | _ => p
  | .gotUser k i overlaid => match p.view history i overlaid with
    | some db => p.gotUser k db
    | none => p
  | .gotName k ok => p.gotName P k ok
  | .logoutTUI status =>
    if p.front = .menu then { p with
      auth := if status then none else p.auth
      currentAccessToken := none
      front := .login
      loginEnabled := true }
    else p
  | .createAndJoinRoom => p.callFromMenu P
  | .joinRoomWithRID => p.callFromMenu P
  | .deliverUser _ => { p with outbox := p.outbox.tail }

end Phone

/-- The phones and the tree of users. -/
structure AccountSystem (ι α δ : Type*) where
  db : δ
  /-- Every state the server has been in, the current one last. -/
  history : List δ
  phones : ι → Phone α

section
variable {ι α δ : Type*} [DecidableEq ι] [RealtimeDatabase δ]

/-- The user that the server takes in a step. -/
def AccountSystem.taken (s : AccountSystem ι α δ) : ι × AccountEvent α → Option User
  | (x, .deliverUser true) => (s.phones x).outbox.head?
  | _ => none

def AccountSystem.commit (s : AccountSystem ι α δ) : Option User → AccountSystem ι α δ
  | some user => { s with
      db := createUser s.db user
      history := s.history ++ [createUser s.db user] }
  | none => s

def AccountSystem.step (P : Provider α) (s : AccountSystem ι α δ) (e : ι × AccountEvent α) :
    AccountSystem ι α δ :=
  { s.commit (s.taken e) with
    phones := Function.update s.phones e.1 ((s.phones e.1).step P s.history e.2) }

/-- Every phone fresh from the store, no user on the server. -/
def AccountSystem.init (P : Provider α) : AccountSystem ι α δ where
  db := RealtimeDatabase.empty
  history := [RealtimeDatabase.empty]
  phones _ := .launch P none none

def accountRun (P : Provider α) (evs : List (ι × AccountEvent α)) : AccountSystem ι α δ :=
  exec (AccountSystem.step P) (AccountSystem.init P) evs

/-! ## Names that may be recorded -/

/-- The user whose name is that of one account and whose uid that of another. -/
def Provider.mixed (P : Provider α) (source account : α) : User :=
  ⟨P.name source, 0, P.uid account⟩

/-- The account's own user. -/
def Provider.user (P : Provider α) (account : α) : User := P.mixed account account

variable {P : Provider α} {R : α → α → Prop}

/-- Each record is of an account, under a name that `R` allows for it. -/
def UserRecords (P : Provider α) (R : α → α → Prop) (db : δ) : Prop :=
  ∀ uid, IsKey uid → ∀ user, getUserWithUID db uid = some user →
    ∃ source account, R source account ∧ uid = P.uid account ∧
      user = (P.mixed source account).properties

theorem userRecords_empty : UserRecords P R (empty : δ) := by
  intro uid hk user hu
  have hno : hasValue (empty : δ) (userRef uid) = false := by
    rw [Bool.eq_false_iff]
    intro h
    obtain ⟨q, l, hl⟩ := hasValue_iff.mp h
    rw [leafAt_empty] at hl
    cases hl
  rw [getUserWithUID, User.init, hno] at hu
  cases hu

theorem UserRecords.createUser {db : δ} (h : UserRecords P R db) {source account : α}
    (hr : R source account) : UserRecords P R (createUser db (P.mixed source account)) := by
  intro uid hk user hu
  rw [getUserWithUID_createUser db (P.uid_key account) hk] at hu
  split at hu
  · rename_i he
    cases hu
    exact ⟨source, account, hr, he, rfl⟩
  · exact h uid hk user hu

/-- What a phone holds and sends are such users too. -/
structure Phone.Sound (P : Provider α) (R : α → α → Prop) (p : Phone α) : Prop where
  currentUser : ∀ user, p.currentUser = some user →
    ∃ source account, R source account ∧ user = (P.mixed source account).properties
  outbox : ∀ user ∈ p.outbox, ∃ source account, R source account ∧ user = P.mixed source account
  requests : ∀ uid asker, .getUserWithUID uid asker ∈ p.requests → ∃ account, uid = P.uid account

structure AccountSystem.Sound (P : Provider α) (R : α → α → Prop) (s : AccountSystem ι α δ) :
    Prop where
  db : UserRecords P R s.db
  history : ∀ d ∈ s.history, UserRecords P R d
  phones : ∀ x, (s.phones x).Sound P R

/-- A name that Graph answers with is one that `R` allows for the account signed in. -/
def AnswersFor (R : α → α → Prop) (s : AccountSystem ι α δ) (e : ι × AccountEvent α) : Prop :=
  ∀ k source account, e.2 = .gotName k true →
    (s.phones e.1).requests[k]? = some (.graphRequest (some source)) →
    (s.phones e.1).auth = some account → R source account

theorem Phone.sound_launch (auth token : Option α) : (Phone.launch P auth token).Sound P R where
  currentUser _ h := by cases h
  outbox _ h := (List.not_mem_nil h).elim
  requests uid asker h := by
    cases auth with
    | none => exact (List.not_mem_nil h).elim
    | some account =>
      cases List.mem_singleton.mp h
      exact ⟨account, rfl⟩

/-- The pending users a phone overlays are sound, and so is what it is shown. -/
theorem Phone.Sound.view {p : Phone α} (h : p.Sound P R) {history : List δ}
    (hh : ∀ d ∈ history, UserRecords P R d) {i : ℕ} {overlaid : Bool} {db : δ}
    (hv : p.view history i overlaid = some db) : UserRecords P R db := by
  obtain ⟨d, hd, rfl⟩ := Option.map_eq_some_iff.mp hv
  have hrec := hh d (List.mem_of_getElem? hd)
  have hout := h.outbox
  cases overlaid with
  | false => exact hrec
  | true =>
    simp only [if_true]
    generalize p.outbox = users at hout
    clear hd hv
    induction users generalizing d with
    | nil => exact hrec
    | cons user users ih =>
      obtain ⟨source, account, hr, rfl⟩ := hout user List.mem_cons_self
      exact ih _ (hrec.createUser hr) fun u hu => hout u (List.mem_cons_of_mem _ hu)

theorem Phone.Sound.gotUser {p : Phone α} (h : p.Sound P R) {db : δ} (hdb : UserRecords P R db)
    (k : ℕ) :
    (p.gotUser k db).Sound P R := by
  have herase : ∀ uid asker, .getUserWithUID uid asker ∈ p.requests.eraseIdx k →
      ∃ account, uid = P.uid account := fun uid asker hr =>
    h.requests uid asker (List.mem_of_mem_eraseIdx hr)
  unfold Phone.gotUser
  split
  · rename_i uid asker hk
    obtain ⟨account, rfl⟩ := h.requests uid asker (List.mem_of_getElem? hk)
    have hfound : ∀ user, getUserWithUID db (P.uid account) = some user →
        ∃ source account, R source account ∧ user = (P.mixed source account).properties := by
      intro user hu
      obtain ⟨source, b, hr, -, rfl⟩ := hdb _ (P.uid_key account) user hu
      exact ⟨source, b, hr, rfl⟩
    cases asker with
    | launch => exact ⟨hfound, h.outbox, herase⟩
    | login =>
      cases hu : getUserWithUID db (P.uid account) with
      | some user =>
        refine ⟨fun u he => ?_, h.outbox, herase⟩
        cases he
        exact hfound user hu
      | none =>
        refine ⟨h.currentUser, h.outbox, fun uid asker hr => ?_⟩
        rcases List.mem_append.mp hr with hr | hr
        · exact herase uid asker hr
        · cases List.mem_singleton.mp hr
  · exact h

theorem Phone.Sound.gotName {p : Phone α} (h : p.Sound P R) (k : ℕ) (ok : Bool)
    (hans : ∀ source account, ok = true → p.requests[k]? = some (.graphRequest (some source)) →
      p.auth = some account → R source account) : (p.gotName P k ok).Sound P R := by
  have herase : ∀ uid asker, .getUserWithUID uid asker ∈ p.requests.eraseIdx k →
      ∃ account, uid = P.uid account := fun uid asker hr =>
    h.requests uid asker (List.mem_of_mem_eraseIdx hr)
  unfold Phone.gotName
  split
  · rename_i token hk
    split
    · rename_i source account ha
      have hr := hans source account rfl hk ha
      refine ⟨fun u he => ?_, fun u hu => ?_, herase⟩
      · cases he
        exact ⟨source, account, hr, rfl⟩
      · rcases List.mem_append.mp hu with hu | hu
        · exact h.outbox u hu
        · exact ⟨source, account, hr, List.mem_singleton.mp hu⟩
    · exact Phone.sound_launch none p.currentAccessToken
    · exact ⟨h.currentUser, h.outbox, herase⟩
  · exact h

theorem Phone.Sound.callFromMenu {p : Phone α} (h : p.Sound P R) :
    (p.callFromMenu P).Sound P R := by
  unfold Phone.callFromMenu
  split
  · exact Phone.sound_launch _ _
  · exact h

theorem Phone.Sound.step {p : Phone α} (h : p.Sound P R) {history : List δ}
    (hh : ∀ d ∈ history, UserRecords P R d) (e : AccountEvent α)
    (hans : ∀ k source account, e = .gotName k true →
      p.requests[k]? = some (.graphRequest (some source)) → p.auth = some account →
      R source account) : (p.step P history e).Sound P R := by
  have hadd : ∀ (l : List (AccountRequest α)) r, (∀ uid asker, .getUserWithUID uid asker ∈ l →
      ∃ account, uid = P.uid account) → (∀ uid asker, r = .getUserWithUID uid asker →
      ∃ account, uid = P.uid account) → ∀ uid asker, .getUserWithUID uid asker ∈ l ++ [r] →
      ∃ account, uid = P.uid account := by
    intro l r hl hr uid asker hm
    rcases List.mem_append.mp hm with hm | hm
    · exact hl uid asker hm
    · exact hr uid asker (List.mem_singleton.mp hm).symm
  have herase : ∀ k uid asker, .getUserWithUID uid asker ∈ p.requests.eraseIdx k →
      ∃ account, uid = P.uid account := fun k uid asker hr =>
    h.requests uid asker (List.mem_of_mem_eraseIdx hr)
  cases e with
  | launch => exact Phone.sound_launch _ _
  | loginTUI =>
    simp only [Phone.step]
    split
    · exact ⟨h.currentUser, h.outbox, hadd _ _ h.requests (by simp)⟩
    · exact h
  | loggedIn k account =>
    simp only [Phone.step]
    split
    · cases account with
      | some account => exact ⟨h.currentUser, h.outbox, hadd _ _ (herase k) (by simp)⟩
      | none => exact ⟨h.currentUser, h.outbox, herase k⟩
    · exact h
  | signedIn k ok =>
    simp only [Phone.step]
    split
    · rename_i account hk
      cases ok with
      | true =>
        refine ⟨h.currentUser, h.outbox, hadd _ _ (herase k) fun uid asker hr => ?_⟩
        cases hr
        exact ⟨account, rfl⟩
      | false => exact ⟨h.currentUser, h.outbox, herase k⟩
    · exact h
  | gotUser k i overlaid =>
    simp only [Phone.step]
    split
    · rename_i db hv
      exact h.gotUser (h.view hh hv) k
    · exact h
  | gotName k ok =>
    exact h.gotName k ok fun source account hok => hans k source account (by rw [hok])
  | logoutTUI status =>
    simp only [Phone.step]
    split
    · exact ⟨h.currentUser, h.outbox, h.requests⟩
    · exact h
  | createAndJoinRoom => exact h.callFromMenu
  | joinRoomWithRID => exact h.callFromMenu
  | deliverUser accepted =>
    exact ⟨h.currentUser, fun u hu => h.outbox u (List.mem_of_mem_tail hu), h.requests⟩

omit [DecidableEq ι] in
theorem sound_init : (AccountSystem.init P : AccountSystem ι α δ).Sound P R where
  db := userRecords_empty
  history d hd := by
    rw [List.mem_singleton.mp hd]
    exact userRecords_empty
  phones _ := Phone.sound_launch none none

omit [DecidableEq ι] [RealtimeDatabase δ] in
/-- The user the server takes was in an outbox. -/
theorem taken_mem {s : AccountSystem ι α δ} {e : ι × AccountEvent α} {user : User}
    (h : s.taken e = some user) : user ∈ (s.phones e.1).outbox := by
  unfold AccountSystem.taken at h
  split at h
  · exact List.mem_of_mem_head? h
  · cases h

theorem AccountSystem.Sound.step {s : AccountSystem ι α δ} (h : s.Sound P R)
    {e : ι × AccountEvent α} (hans : AnswersFor R s e) : (s.step P e).Sound P R := by
  have hphones : ∀ x, ((s.step P e).phones x).Sound P R := by
    intro x
    by_cases hx : x = e.1
    · subst hx
      simp only [AccountSystem.step, Function.update_self]
      exact (h.phones e.1).step h.history e.2 hans
    · simp only [AccountSystem.step, Function.update_of_ne hx]
      exact h.phones x
  cases ht : s.taken e with
  | none =>
    simp only [AccountSystem.step, ht, AccountSystem.commit] at hphones ⊢
    exact ⟨h.db, h.history, hphones⟩
  | some user =>
    obtain ⟨source, account, hr, rfl⟩ := (h.phones e.1).outbox user (taken_mem ht)
    have hnew := h.db.createUser hr
    simp only [AccountSystem.step, ht, AccountSystem.commit] at hphones ⊢
    refine ⟨hnew, fun d hd => ?_, hphones⟩
    rcases List.mem_append.mp hd with hd | hd
    · exact h.history d hd
    · rw [List.mem_singleton.mp hd]
      exact hnew

theorem run_sound {evs : List (ι × AccountEvent α)}
    (h : Along (AccountSystem.step P) (AnswersFor R)
      (AccountSystem.init P : AccountSystem ι α δ) evs) :
    (accountRun P evs : AccountSystem ι α δ).Sound P R :=
  exec_invariant sound_init (fun _ _ hs hp => hs.step hp) h

/-- Any name is allowed where nothing is known of the answers. -/
theorem run_sound_any (P : Provider α) (evs : List (ι × AccountEvent α)) :
    (accountRun P evs : AccountSystem ι α δ).Sound P fun _ _ => True :=
  run_sound (along_iff_split.mpr fun _ _ _ _ _ _ _ _ _ _ => trivial)

/-! ## Whole records, and own ones -/

/-- **Users are whole.** In every state of every run each record of the server, each user
that a phone has and each that it sends has a name, the balance zero and an account's uid:
`init:` never reads a user with a property missing, and nothing changes a balance. -/
theorem users_whole (P : Provider α) (evs : List (ι × AccountEvent α)) :
    (∀ d ∈ (accountRun P evs : AccountSystem ι α δ).history, ∀ uid, IsKey uid →
      ∀ user, getUserWithUID d uid = some user → ∃ source account,
        uid = P.uid account ∧ user = ⟨some (P.name source), some 0, some (P.uid account)⟩) ∧
    ∀ x, (∀ user, ((accountRun P evs : AccountSystem ι α δ).phones x).currentUser = some user →
        ∃ source account, user = ⟨some (P.name source), some 0, some (P.uid account)⟩) ∧
      ∀ user ∈ ((accountRun P evs : AccountSystem ι α δ).phones x).outbox,
        ∃ source account, user = ⟨P.name source, 0, P.uid account⟩ := by
  have hs := run_sound_any (δ := δ) P evs
  refine ⟨fun d hd uid hk user hu => ?_, fun x => ⟨fun user hu => ?_, fun user hu => ?_⟩⟩
  · obtain ⟨source, account, -, he, hu⟩ := hs.history d hd uid hk user hu
    exact ⟨source, account, he, hu⟩
  · obtain ⟨source, account, -, hu⟩ := (hs.phones x).currentUser user hu
    exact ⟨source, account, hu⟩
  · obtain ⟨source, account, -, hu⟩ := (hs.phones x).outbox user hu
    exact ⟨source, account, hu⟩

/-- Every record, every user of a phone and every one it sends is an account's own. -/
structure AccountSystem.Own (P : Provider α) (s : AccountSystem ι α δ) : Prop where
  records : ∀ d ∈ s.history, ∀ account, ∀ user, getUserWithUID d (P.uid account) = some user →
    user = (P.user account).properties
  currentUser : ∀ x user, (s.phones x).currentUser = some user →
    ∃ account, user = (P.user account).properties
  outbox : ∀ x, ∀ user ∈ (s.phones x).outbox, ∃ account, user = P.user account

/-- The two accounts have one name. -/
def Provider.SameName (P : Provider α) (source account : α) : Prop := P.name source = P.name account

theorem mixed_eq_user {source account : α} (h : P.SameName source account) :
    P.mixed source account = P.user account := by
  unfold Provider.user Provider.mixed
  rw [h]

omit [DecidableEq ι] in
theorem own_of_sound {s : AccountSystem ι α δ} (h : s.Sound P P.SameName) : s.Own P where
  records d hd account user hu := by
    obtain ⟨source, b, hr, hb, rfl⟩ := h.history d hd _ (P.uid_key account) user hu
    obtain rfl := P.uid_injective hb
    rw [mixed_eq_user hr]
  currentUser x user hu := by
    obtain ⟨source, account, hr, rfl⟩ := (h.phones x).currentUser user hu
    exact ⟨account, by rw [mixed_eq_user hr]⟩
  outbox x user hu := by
    obtain ⟨source, account, hr, rfl⟩ := (h.phones x).outbox user hu
    exact ⟨account, mixed_eq_user hr⟩

/-- A Graph answer that is acted on goes to the outbox. -/
theorem outbox_gotName {s : AccountSystem ι α δ} {x : ι} {k : ℕ} {source account : α}
    (hk : (s.phones x).requests[k]? = some (.graphRequest (some source)))
    (ha : (s.phones x).auth = some account) :
    P.mixed source account ∈ ((s.step P (x, .gotName k true)).phones x).outbox := by
  simp only [AccountSystem.step, Function.update_self, Phone.step, Phone.gotName, hk, ha]
  exact List.mem_append_right _ List.mem_cons_self

/-- **Records are the accounts' own, exactly while names come to their own account.** In
every state of a run all records, users and users on their way are their accounts' own if
and only if each name that Graph answers with is that of the account signed in by then. -/
theorem own_iff_answersFor (P : Provider α) (evs : List (ι × AccountEvent α)) :
    (∀ pre, pre <+: evs → (accountRun P pre : AccountSystem ι α δ).Own P) ↔
      Along (AccountSystem.step P) (AnswersFor P.SameName)
        (AccountSystem.init P : AccountSystem ι α δ) evs := by
  constructor
  · intro h
    refine along_iff_split.mpr ?_
    rintro pre ⟨x, e⟩ post rfl k source account he hk ha
    simp only at he hk ha
    subst he
    have hown := h (pre ++ [(x, .gotName k true)]) ⟨post, by simp⟩
    rw [accountRun, exec_concat] at hown
    obtain ⟨b, hb⟩ := hown.outbox x _ (outbox_gotName hk ha)
    have huid : P.uid account = P.uid b := congrArg User.uid hb
    obtain rfl := P.uid_injective huid
    exact congrArg User.name hb
  · rintro h pre ⟨post, rfl⟩
    exact own_of_sound (run_sound (Along.append.mp h).1)

end

/-- Ann and Bob. -/
def annAndBob : Provider Bool where
  name account := if account then "Bob" else "Ann"
  uid account := if account then "uidB" else "uidA"
  uid_injective := by decide
  uid_key := by decide

/-- Ann logs out while her name is on its way, and Bob logs in: his record is hers. -/
example : getUserWithUID (accountRun annAndBob [((), .loginTUI), ((), .loggedIn 0 (some false)),
    ((), .signedIn 0 true), ((), .gotUser 0 0 true), ((), .logoutTUI true), ((), .loginTUI),
    ((), .loggedIn 1 (some true)), ((), .signedIn 1 true), ((), .gotName 0 true),
    ((), .deliverUser true)] : AccountSystem Unit Bool LeafTree).db "uidB" =
      some ⟨some "Ann", some 0, some "uidB"⟩ := by decide +kernel

end Unplug.App
