import Unplug.App.Accounts
import Unplug.App.LoginScreen
import Unplug.App.Server
import Unplug.Machine.Refine

/-! # A phone's accounts refine its session

Seen without the accounts behind the uids, each phone runs a session: the records that
other phones wrote are answers like any other. What sessions do, phones do; and where
nobody logs out on a name that is still on its way, each account keeps its own record. -/
namespace Unplug.App
open Unplug.Store Unplug.Firebase Unplug.Machine RealtimeDatabase

/-! ## The session of a phone -/

def AccountRequest.request {α : Type*} : AccountRequest α → Request
  | .logInWithReadPermissions => .logInWithReadPermissions
  | .signInWithCredential _ => .signInWithCredential
  | .getUserWithUID uid asker => .getUserWithUID uid asker
  | .graphRequest _ => .graphRequest

section
variable {α : Type*}

@[simp] theorem request_logIn :
    (.logInWithReadPermissions : AccountRequest α).request = .logInWithReadPermissions := rfl

@[simp] theorem request_signIn (account : α) :
    (AccountRequest.signInWithCredential account).request = .signInWithCredential := rfl

@[simp] theorem request_getUser (uid : String) (asker : Asker) :
    (.getUserWithUID uid asker : AccountRequest α).request = .getUserWithUID uid asker := rfl

@[simp] theorem request_graph (token : Option α) :
    (AccountRequest.graphRequest token).request = .graphRequest := rfl

end

def Phone.session {α : Type*} (P : Provider α) (p : Phone α) : Session where
  auth := p.auth.map P.uid
  currentUser := p.currentUser.bind (·.user)
  front := p.front
  loginEnabled := p.loginEnabled
  requests := p.requests.map (·.request)

section
variable {ι α δ : Type*} [RealtimeDatabase δ]

/-- What an event of the phone is to its session. -/
def Phone.sessionEvent (P : Provider α) (history : List δ) (p : Phone α) :
    AccountEvent α → Option SessionEvent
  | .launch => some .launch
  | .loginTUI => some .loginTUI
  | .loggedIn k account => some (.loggedIn k account.isSome)
  | .signedIn k ok => match p.requests[k]? with
    | some (.signInWithCredential account) =>
      some (.signedIn k (if ok then some (P.uid account) else none))
    | _ => none
  | .gotUser k i overlaid => match p.requests[k]?, p.view history i overlaid with
    | some (.getUserWithUID uid _), some db =>
      some (.gotUser k ((getUserWithUID db uid).bind fun user =>
        user.user.map fun user => (user.name, user.balance)))
    | _, _ => none
  | .gotName k ok => match p.requests[k]? with
    | some (.graphRequest token) =>
      some (.gotName k (if ok then token.map P.name else none))
    | _ => none
  | .logoutTUI status => some (.logoutTUI status)
  | .createAndJoinRoom => some .createAndJoinRoom
  | .joinRoomWithRID => some .joinRoomWithRID
  | .deliverUser _ => none

variable {P : Provider α} {R : α → α → Prop}

@[simp] theorem session_front (p : Phone α) : (p.session P).front = p.front := rfl

@[simp] theorem session_loginEnabled (p : Phone α) :
    (p.session P).loginEnabled = p.loginEnabled := rfl

theorem session_launch (auth token : Option α) :
    (Phone.launch P auth token).session P = Session.launch (auth.map P.uid) := by
  cases auth <;> rfl

theorem request_getElem? (p : Phone α) (k : ℕ) :
    (p.session P).requests[k]? = (p.requests[k]?).map (·.request) := List.getElem?_map

theorem usersEntry_session {p : Phone α} (h : p.Sound P R) :
    (p.session P).usersEntry = p.usersEntry := by
  cases hu : p.currentUser with
  | none => simp only [Session.usersEntry, Phone.session, Phone.usersEntry, hu]; rfl
  | some user =>
    obtain ⟨source, account, -, rfl⟩ := h.currentUser user hu
    simp only [Session.usersEntry, Phone.session, Phone.usersEntry, hu]
    rfl

theorem session_callFromMenu {p : Phone α} (h : p.Sound P R) :
    (p.callFromMenu P).session P = (p.session P).callFromMenu := by
  unfold Phone.callFromMenu Session.callFromMenu
  rw [usersEntry_session h, session_front]
  split
  · exact session_launch _ _
  · rfl

theorem session_gotUser {p : Phone α} (h : p.Sound P R) {history : List δ}
    (hh : ∀ d ∈ history, UserRecords P R d) (k i : ℕ) (overlaid : Bool) :
    (p.step P history (.gotUser k i overlaid)).session P =
      exec Session.step (p.session P)
        (p.sessionEvent P history (.gotUser k i overlaid)).toList := by
  simp only [Phone.step, Phone.sessionEvent]
  cases hv : p.view history i overlaid with
  | none =>
    cases p.requests[k]? with
    | none => rfl
    | some r => cases r <;> rfl
  | some db =>
    have hreq := request_getElem? (P := P) p k
    simp only [Phone.gotUser]
    cases hk : p.requests[k]? with
    | none => rfl
    | some r =>
      rw [hk, Option.map_some] at hreq
      cases r with
      | getUserWithUID uid asker =>
        obtain ⟨account, rfl⟩ := h.requests uid asker (List.mem_of_getElem? hk)
        simp only [Option.toList_some, exec_cons, exec_nil, Session.step, Session.gotUser, hreq,
          request_getUser]
        cases hu : getUserWithUID db (P.uid account) with
        | none => cases asker <;> simp [Phone.session, List.eraseIdx_map]
        | some user =>
          -- what is read of a sound tree is whole
          obtain ⟨source, b, -, hb, rfl⟩ := h.view hh hv _ (P.uid_key account) user hu
          cases asker <;> simp [Phone.session, List.eraseIdx_map, Provider.mixed, hb]
      | _ => rfl

theorem session_gotName (p : Phone α) (history : List δ) (k : ℕ) (ok : Bool) :
    (p.step P history (.gotName k ok)).session P =
      exec Session.step (p.session P) (p.sessionEvent P history (.gotName k ok)).toList := by
  simp only [Phone.step, Phone.sessionEvent, Phone.gotName]
  have hreq := request_getElem? (P := P) p k
  cases hk : p.requests[k]? with
  | none => rfl
  | some r =>
    rw [hk, Option.map_some] at hreq
    cases r with
    | graphRequest token =>
      simp only [Option.toList_some, exec_cons, exec_nil, Session.step, Session.gotName, hreq,
        request_graph]
      cases token with
      | none => cases ok <;> simp [Phone.session, List.eraseIdx_map]
      | some source =>
        cases ok with
        | false => simp [Phone.session, List.eraseIdx_map]
        | true =>
          cases ha : p.auth with
          | none =>
            have hauth : (p.session P).auth = none := by simp [Phone.session, ha]
            simp only [hauth, Option.map_some, if_true]
            exact session_launch none _
          | some account =>
            have hauth : (p.session P).auth = some (P.uid account) := by simp [Phone.session, ha]
            simp only [hauth, Option.map_some, if_true]
            simp [Phone.session, List.eraseIdx_map, UserProperties.user, ha]
    | _ => rfl

/-- **A phone's step is its session's**, on the event that it is to the session. -/
theorem session_step {p : Phone α} (h : p.Sound P R) {history : List δ}
    (hh : ∀ d ∈ history, UserRecords P R d) (e : AccountEvent α) :
    (p.step P history e).session P =
      exec Session.step (p.session P) (p.sessionEvent P history e).toList := by
  cases e with
  | launch => exact session_launch _ _
  | loginTUI =>
    simp only [Phone.step, Phone.sessionEvent, Option.toList_some, exec_cons, exec_nil,
      Session.step]
    rw [session_front, session_loginEnabled]
    split
    · simp [Phone.session]
    · rfl
  | loggedIn k account =>
    have hreq := request_getElem? (P := P) p k
    simp only [Phone.step, Phone.sessionEvent, Option.toList_some, exec_cons, exec_nil,
      Session.step]
    cases hk : p.requests[k]? with
    | none => rw [hreq, hk]; rfl
    | some r =>
      rw [hk, Option.map_some] at hreq
      cases r with
      | logInWithReadPermissions =>
        rw [request_logIn] at hreq
        rw [if_pos hreq]
        cases account <;> simp [Phone.session, List.eraseIdx_map]
      | _ => rw [if_neg (by rw [hreq]; simp)]
  | signedIn k ok =>
    have hreq := request_getElem? (P := P) p k
    simp only [Phone.step, Phone.sessionEvent]
    cases hk : p.requests[k]? with
    | none => rfl
    | some r =>
      rw [hk, Option.map_some] at hreq
      cases r with
      | signInWithCredential account =>
        simp only [Option.toList_some, exec_cons, exec_nil, Session.step]
        rw [request_signIn] at hreq
        rw [if_pos hreq]
        cases ok <;> simp [Phone.session, List.eraseIdx_map]
      | _ => rfl
  | gotUser k i overlaid => exact session_gotUser h hh k i overlaid
  | gotName k ok => exact session_gotName p history k ok
  | logoutTUI status =>
    simp only [Phone.step, Phone.sessionEvent, Option.toList_some, exec_cons, exec_nil,
      Session.step]
    rw [session_front]
    split
    · cases status <;> simp [Phone.session]
    · rfl
  | createAndJoinRoom => exact session_callFromMenu h
  | joinRoomWithRID => exact session_callFromMenu h
  | deliverUser accepted => rfl

/-! ## The phones of a system -/

variable [DecidableEq ι]

/-- What a step of the system is to the session of `x`. -/
def AccountSystem.sessionEvent (P : Provider α) (x : ι) (s : AccountSystem ι α δ)
    (e : ι × AccountEvent α) : Option SessionEvent :=
  if e.1 = x then (s.phones x).sessionEvent P s.history e.2 else none

/-- The session events of the phone `x` in a run. -/
def sessionEvents (P : Provider α) (δ : Type*) [RealtimeDatabase δ] (x : ι)
    (evs : List (ι × AccountEvent α)) : List SessionEvent :=
  outputs (AccountSystem.step P) (AccountSystem.sessionEvent P x)
    (AccountSystem.init P : AccountSystem ι α δ) evs

theorem phones_step (P : Provider α) (s : AccountSystem ι α δ) (e : ι × AccountEvent α) (x : ι) :
    (s.step P e).phones x = if e.1 = x then (s.phones x).step P s.history e.2 else s.phones x := by
  by_cases hx : e.1 = x
  · subst hx
    rw [if_pos rfl]
    exact Function.update_self _ _ _
  · rw [if_neg hx]
    exact Function.update_of_ne (Ne.symm hx) _ _

theorem phone_refines (P : Provider α) (x : ι) :
    Refines (AccountSystem.step P) (fun _ _ => True)
      (fun s : AccountSystem ι α δ => s.Sound P fun _ _ => True)
      (fun s => (s.phones x).session P) (AccountSystem.sessionEvent P x) Session.step where
  keeps s e h _ := h.step fun _ _ _ _ _ _ => trivial
  step s e h _ := by
    rw [phones_step, AccountSystem.sessionEvent]
    split
    · exact session_step (h.phones x) h.history e.2
    · rfl

omit [DecidableEq ι] in
theorem session_init (P : Provider α) (x : ι) :
    ((AccountSystem.init P : AccountSystem ι α δ).phones x).session P = Session.launch none :=
  session_launch none none

/-- **Every phone runs a session.** Whatever the other phones write, the phone's session
after a run is that of its own events, each with the answer that the run gave it. -/
theorem accounts_refine_sessions (P : Provider α) (x : ι) (evs : List (ι × AccountEvent α)) :
    ((accountRun P evs : AccountSystem ι α δ).phones x).session P =
      sessionRun none (sessionEvents P δ x evs) := by
  have h := (phone_refines (δ := δ) P x).exec sound_init (along_true _ evs)
  rw [session_init] at h
  exact h

theorem run_oneLogin_phone (P : Provider α) (x : ι) (evs : List (ι × AccountEvent α)) :
    (((accountRun P evs : AccountSystem ι α δ).phones x).session P).OneLogin := by
  have h := (phone_refines (δ := δ) P x).exec sound_init (along_true _ evs)
  rw [session_init] at h
  rw [accountRun, h]
  exact run_oneLogin none _

/-! ## Names that wait for their account -/

/-- The request is for the account whose token the phone has, or had when it was made. -/
def Phone.Carries (P : Provider α) (p : Phone α) : AccountRequest α → Prop
  | .signInWithCredential account => p.currentAccessToken = some account
  | .getUserWithUID uid .login =>
    ∃ account, uid = P.uid account ∧ p.auth = some account ∧ p.currentAccessToken = some account
  | .graphRequest token =>
    p.front = .menu ∧ ∃ account, token = some account ∧ p.auth = some account
  | _ => True

/-- A request that carries a token carries that of the account it is for. -/
def Phone.Tokened (P : Provider α) (p : Phone α) : Prop := ∀ r ∈ p.requests, p.Carries P r

/-- A Graph request of the phone is answered before its user logs out. -/
def LogsOutIdle (s : AccountSystem ι α δ) (e : ι × AccountEvent α) : Prop :=
  ∀ status, e.2 = .logoutTUI status → (s.phones e.1).front = .menu →
    ∀ r ∈ (s.phones e.1).requests, r.request ≠ .graphRequest

instance [DecidableEq α] (s : AccountSystem ι α δ) (e : ι × AccountEvent α) :
    Decidable (LogsOutIdle s e) := inferInstanceAs (Decidable (∀ _, _))

omit [DecidableEq ι] in
theorem tokened_launch (auth token : Option α) : (Phone.launch P auth token).Tokened P := by
  intro r hr
  cases auth with
  | none => exact (List.not_mem_nil hr).elim
  | some account =>
    cases List.mem_singleton.mp hr
    trivial

/-- A login that is answered was the only one, and its screen is in front. -/
theorem no_login_left {p : Phone α} (h : (p.session P).OneLogin) {k : ℕ} {r : AccountRequest α}
    (hk : p.requests[k]? = some r) (hr : r.request.ofLogin = true) :
    p.front = .login ∧ ∀ r' ∈ p.requests.eraseIdx k, r'.request.ofLogin = false := by
  have hk' : (p.session P).requests[k]? = some r.request := by
    rw [request_getElem?, hk]
    rfl
  refine ⟨(Session.front_of_login h hk' hr).1, fun r' hr' => ?_⟩
  have hmem : r'.request ∈ (p.session P).requests.eraseIdx k := by
    rw [show (p.session P).requests = p.requests.map (·.request) from rfl, List.eraseIdx_map]
    exact List.mem_map_of_mem hr'
  simpa using List.countP_eq_zero.mp (Session.no_logins_left h hk' hr) _ hmem

theorem no_login_menu {p : Phone α} (h : (p.session P).OneLogin) (hf : p.front = .menu) :
    ∀ r ∈ p.requests, r.request.ofLogin = false := by
  intro r hr
  unfold Session.OneLogin at h
  rw [session_front, hf] at h
  simpa using List.countP_eq_zero.mp h r.request (List.mem_map_of_mem hr)

/-- Where the accounts and the screen stay, only new requests matter. -/
theorem Phone.Tokened.same {p p' : Phone α} (h : p.Tokened P) (ha : p'.auth = p.auth)
    (ht : p'.currentAccessToken = p.currentAccessToken) (hf : p'.front = p.front)
    (hr : ∀ r ∈ p'.requests, r ∈ p.requests ∨ p'.Carries P r) : p'.Tokened P := by
  intro r hm
  rcases hr r hm with hold | hnew
  · have hcarries := h r hold
    unfold Phone.Carries at hcarries ⊢
    rwa [ha, ht, hf]
  · exact hnew

/-- Of the requests that are no login's, Graph requests alone carry a token. -/
theorem carries_of_no_login {p : Phone α} {r : AccountRequest α} (hno : r.request.ofLogin = false)
    (hgraph : ∀ token, r = .graphRequest token → p.Carries P r) : p.Carries P r := by
  cases r with
  | logInWithReadPermissions => cases hno
  | signInWithCredential account => cases hno
  | getUserWithUID uid asker =>
    cases asker with
    | launch => trivial
    | login => cases hno
  | graphRequest token => exact hgraph token rfl

/-- The only login goes on with its next request. -/
theorem tokened_login {p p' : Phone α} {k : ℕ} {new : AccountRequest α}
    (hleft : ∀ r ∈ p.requests.eraseIdx k, r.request.ofLogin = false)
    (hgraph : ∀ token, .graphRequest token ∈ p.requests → p'.Carries P (.graphRequest token))
    (hreq : p'.requests = p.requests.eraseIdx k ++ [new]) (hnew : p'.Carries P new) :
    p'.Tokened P := by
  intro r hr
  rw [hreq] at hr
  rcases List.mem_append.mp hr with hr | hr
  · refine carries_of_no_login (hleft r hr) fun token h => ?_
    subst h
    exact hgraph token (List.mem_of_mem_eraseIdx hr)
  · rw [List.mem_singleton.mp hr]
    exact hnew

/-- A Graph request would have the menu in front. -/
theorem Phone.Tokened.no_graph {p : Phone α} (h : p.Tokened P) (hf : p.front = .login)
    (token : Option α) : .graphRequest token ∉ p.requests := by
  intro hr
  have hmenu := (h _ hr).1
  rw [hf] at hmenu
  cases hmenu

theorem Phone.Tokened.gotUser {p : Phone α} (h : p.Tokened P) (hone : (p.session P).OneLogin)
    (k : ℕ) (db : δ) : (p.gotUser k db).Tokened P := by
  unfold Phone.gotUser
  split
  · rename_i uid asker hk
    cases asker with
    | launch => exact h.same rfl rfl rfl fun r hr => .inl (List.mem_of_mem_eraseIdx hr)
    | login =>
      obtain ⟨hf, hleft⟩ := no_login_left hone hk rfl
      cases getUserWithUID db uid with
      | some user =>
        intro r hr
        refine carries_of_no_login (hleft r hr) fun token hx => ?_
        exact absurd (hx ▸ List.mem_of_mem_eraseIdx hr) (h.no_graph hf token)
      | none =>
        obtain ⟨account, -, ha, ht⟩ := h _ (List.mem_of_getElem? hk)
        exact tokened_login hleft (fun token hr => absurd hr (h.no_graph hf token)) rfl
          ⟨rfl, account, ht, ha⟩
  · exact h

theorem Phone.Tokened.callFromMenu {p : Phone α} (h : p.Tokened P) :
    (p.callFromMenu P).Tokened P := by
  unfold Phone.callFromMenu
  split
  · exact tokened_launch _ _
  · exact h

theorem Phone.Tokened.gotName {p : Phone α} (h : p.Tokened P) (k : ℕ) (ok : Bool) :
    (p.gotName P k ok).Tokened P := by
  unfold Phone.gotName
  split
  · split
    · exact h.same rfl rfl rfl fun r hr => .inl (List.mem_of_mem_eraseIdx hr)
    · exact tokened_launch _ _
    · exact h.same rfl rfl rfl fun r hr => .inl (List.mem_of_mem_eraseIdx hr)
  · exact h

theorem Phone.Tokened.step {p : Phone α} (h : p.Tokened P) (hone : (p.session P).OneLogin)
    (history : List δ) {e : AccountEvent α}
    (hidle : ∀ status, e = .logoutTUI status → p.front = .menu →
      ∀ r ∈ p.requests, r.request ≠ .graphRequest) : (p.step P history e).Tokened P := by
  cases e with
  | launch => exact tokened_launch _ _
  | loginTUI =>
    simp only [Phone.step]
    split
    · refine h.same rfl rfl rfl fun r hr => ?_
      rcases List.mem_append.mp hr with hr | hr
      · exact .inl hr
      · rw [List.mem_singleton.mp hr]
        exact .inr trivial
    · exact h
  | loggedIn k account =>
    simp only [Phone.step]
    split
    · rename_i hk
      obtain ⟨hf, hleft⟩ := no_login_left hone hk rfl
      cases account with
      | none => exact h.same rfl rfl rfl fun r hr => .inl (List.mem_of_mem_eraseIdx hr)
      | some account => exact tokened_login hleft (fun token hr => h _ hr) rfl rfl
    · exact h
  | signedIn k ok =>
    simp only [Phone.step]
    split
    · rename_i account hk
      obtain ⟨hf, hleft⟩ := no_login_left hone hk rfl
      cases ok with
      | false => exact h.same rfl rfl rfl fun r hr => .inl (List.mem_of_mem_eraseIdx hr)
      | true =>
        exact tokened_login hleft (fun token hr => absurd hr (h.no_graph hf token)) rfl
          ⟨account, rfl, rfl, h _ (List.mem_of_getElem? hk)⟩
    · exact h
  | gotUser k i overlaid =>
    simp only [Phone.step]
    split
    · exact h.gotUser hone k _
    · exact h
  | gotName k ok => exact h.gotName k ok
  | logoutTUI status =>
    simp only [Phone.step]
    split
    · rename_i hf
      intro r hr
      refine carries_of_no_login (no_login_menu hone hf r hr) fun token hx => ?_
      exact absurd (congrArg AccountRequest.request hx) (hidle status rfl hf r hr)
    · exact h
  | createAndJoinRoom => exact h.callFromMenu
  | joinRoomWithRID => exact h.callFromMenu
  | deliverUser accepted => exact h.same rfl rfl rfl fun r hr => .inl hr

theorem run_tokened {evs : List (ι × AccountEvent α)}
    (h : Along (AccountSystem.step P) LogsOutIdle (AccountSystem.init P : AccountSystem ι α δ) evs)
    (x : ι) : ((accountRun P evs : AccountSystem ι α δ).phones x).Tokened P := by
  induction evs using List.reverseRecOn with
  | nil => exact tokened_launch none none
  | append_singleton evs e ih =>
    obtain ⟨hevs, hidle⟩ := Along.concat.mp h
    rw [accountRun, exec_concat, phones_step]
    split
    · rename_i hx
      subst hx
      exact (ih hevs).step (run_oneLogin_phone P e.1 evs) _ hidle
    · exact ih hevs

/-- Where logouts wait for names, names come to their own account. -/
theorem answersFor_of_idle {evs : List (ι × AccountEvent α)}
    (h : Along (AccountSystem.step P) LogsOutIdle
      (AccountSystem.init P : AccountSystem ι α δ) evs) :
    Along (AccountSystem.step P) (AnswersFor P.SameName)
      (AccountSystem.init P : AccountSystem ι α δ) evs := by
  refine along_iff_split.mpr ?_
  rintro pre e post rfl k source account - hk ha
  have htok := run_tokened (Along.append.mp h).1 e.1
  obtain ⟨-, b, hb, hauth⟩ := htok _ (List.mem_of_getElem? hk)
  cases hb
  obtain rfl : source = account := Option.some.inj (hauth.symm.trans ha)
  exact rfl

/-! ## Records that stay -/

/-- Every state of the server keeps the records of those before it. -/
theorem records_stay (P : Provider α) (evs : List (ι × AccountEvent α)) :
    (accountRun P evs : AccountSystem ι α δ).history.Pairwise
        (fun d d' : δ => ∀ account, getUserWithUID d (P.uid account) ≠ none →
          getUserWithUID d' (P.uid account) ≠ none) ∧
      ∀ d ∈ (accountRun P evs : AccountSystem ι α δ).history, ∀ account,
        getUserWithUID d (P.uid account) ≠ none →
          getUserWithUID (accountRun P evs : AccountSystem ι α δ).db (P.uid account) ≠ none := by
  induction evs using List.reverseRecOn with
  | nil =>
    refine ⟨List.pairwise_singleton _ _, fun d hd account h => ?_⟩
    rw [List.mem_singleton.mp hd] at h
    exact h
  | append_singleton evs e ih =>
    obtain ⟨hpair, hlast⟩ := ih
    have hsound : (accountRun P evs : AccountSystem ι α δ).Sound P fun _ _ => True :=
      run_sound_any P evs
    rw [accountRun, exec_concat]
    rw [accountRun] at hpair hlast hsound
    generalize exec (AccountSystem.step P) (AccountSystem.init P : AccountSystem ι α δ) evs = s
      at hpair hlast hsound
    cases ht : s.taken e with
    | none =>
      simp only [AccountSystem.step, ht, AccountSystem.commit]
      exact ⟨hpair, hlast⟩
    | some user =>
      obtain ⟨source, b, -, rfl⟩ := (hsound.phones e.1).outbox user (taken_mem ht)
      have hkeep : ∀ account, getUserWithUID s.db (P.uid account) ≠ none →
          getUserWithUID (createUser s.db (P.mixed source b)) (P.uid account) ≠ none := by
        intro account h
        rw [getUserWithUID_createUser s.db (P.uid_key b) (P.uid_key account)]
        split
        · simp
        · exact h
      simp only [AccountSystem.step, ht, AccountSystem.commit]
      refine ⟨List.pairwise_append.mpr ⟨hpair, List.pairwise_singleton _ _, ?_⟩, ?_⟩
      · intro d hd d' hd' account h
        rw [List.mem_singleton.mp hd']
        exact hkeep account (hlast d hd account h)
      · intro d hd account h
        rcases List.mem_append.mp hd with hd | hd
        · exact hkeep account (hlast d hd account h)
        · rw [List.mem_singleton.mp hd] at h
          exact h

/-- **Accounts keep their records.** Where logouts wait for names, every record, user and
user on its way is the account's own, and a record, once there, never changes. -/
theorem records_kept {evs : List (ι × AccountEvent α)}
    (h : Along (AccountSystem.step P) LogsOutIdle
      (AccountSystem.init P : AccountSystem ι α δ) evs) :
    (accountRun P evs : AccountSystem ι α δ).Own P ∧
      ∀ (i j : ℕ) (d d' : δ), i ≤ j →
        (accountRun P evs : AccountSystem ι α δ).history[i]? = some d →
        (accountRun P evs : AccountSystem ι α δ).history[j]? = some d' → ∀ account user,
        getUserWithUID d (P.uid account) = some user →
          getUserWithUID d' (P.uid account) = some user := by
  have hown : (accountRun P evs : AccountSystem ι α δ).Own P :=
    own_of_sound (run_sound (answersFor_of_idle h))
  refine ⟨hown, ?_⟩
  intro i j d d' hij hi hj account user hu
  have hsome : getUserWithUID d' (P.uid account) ≠ none :=
    related_of_le (fun _ _ h => h) (records_stay P evs).1 hij hi hj account (by rw [hu]; simp)
  obtain ⟨user', hu'⟩ := Option.ne_none_iff_exists'.mp hsome
  rw [hu', hown.records d' (List.mem_of_getElem? hj) account user' hu',
    hown.records d (List.mem_of_getElem? hi) account user hu]

/-- Ann registers on one phone, plays, and gives it to Bob, who registers and plays too. -/
def annThenBobRegister : List (Unit × AccountEvent Bool) :=
  [((), .loginTUI), ((), .loggedIn 0 (some false)), ((), .signedIn 0 true),
    ((), .gotUser 0 0 true), ((), .gotName 0 true), ((), .deliverUser true),
    ((), .createAndJoinRoom), ((), .logoutTUI true), ((), .loginTUI),
    ((), .loggedIn 0 (some true)), ((), .signedIn 0 true), ((), .gotUser 0 1 true),
    ((), .gotName 0 true), ((), .deliverUser true), ((), .joinRoomWithRID)]

theorem records_kept_both :
    (accountRun annAndBob annThenBobRegister : AccountSystem Unit Bool LeafTree).Own annAndBob ∧
      ∀ (i j : ℕ) (d d' : LeafTree), i ≤ j →
        (accountRun annAndBob annThenBobRegister :
          AccountSystem Unit Bool LeafTree).history[i]? = some d →
        (accountRun annAndBob annThenBobRegister :
          AccountSystem Unit Bool LeafTree).history[j]? = some d' → ∀ account user,
        getUserWithUID d (annAndBob.uid account) = some user →
          getUserWithUID d' (annAndBob.uid account) = some user :=
  records_kept (by decide +kernel)

/-! ## The entry of the account signed in -/

/-- The event calls `createAndJoinRoom:` or `joinRoomWithRID:`. -/
def AccountEvent.calls : AccountEvent α → Bool
  | .createAndJoinRoom => true
  | .joinRoomWithRID => true
  | _ => false

/-- The user of `x` calls and logs out with no request of the phone open, its launches find
a record, and Graph answers it with names. -/
def PatientAt (P : Provider α) (x : ι) (s : AccountSystem ι α δ) (e : ι × AccountEvent α) : Prop :=
  ∀ se, s.sessionEvent P x e = some se → Patient ((s.phones x).session P) se

instance [DecidableEq α] (P : Provider α) (x : ι) (s : AccountSystem ι α δ)
    (e : ι × AccountEvent α) : Decidable (PatientAt P x s e) :=
  inferInstanceAs (Decidable (∀ se ∈ s.sessionEvent P x e, _))

/-- **A patient user plays as its account.** Where logouts wait for names, the user of `x`
waits for the answers, and these are names and records, every create and join from its menu
writes the entry of the user that belongs to the account signed in. -/
theorem entry_of_account {evs : List (ι × AccountEvent α)} {x : ι}
    (hidle : Along (AccountSystem.step P) LogsOutIdle
      (AccountSystem.init P : AccountSystem ι α δ) evs)
    (hpatient : Along (AccountSystem.step P) (PatientAt P x)
      (AccountSystem.init P : AccountSystem ι α δ) evs) :
    Along (AccountSystem.step P) (fun s e => e.1 = x → e.2.calls = true →
        (s.phones x).front = .menu → ∃ account, (s.phones x).auth = some account ∧
          (s.phones x).usersEntry = some (P.uid account, userEntry (P.user account)))
      (AccountSystem.init P : AccountSystem ι α δ) evs := by
  have hrefines := phone_refines (δ := δ) P x
  have hsession := (hrefines.along (Q := Patient) sound_init (along_true _ evs)).mpr hpatient
  rw [session_init] at hsession
  have hidentified := patient_identified none hsession
  rw [← session_init (δ := δ) P x] at hidentified
  have hback := (hrefines.along sound_init (along_true _ evs)).mp hidentified
  refine along_iff_split.mpr ?_
  rintro pre ⟨y, e⟩ post rfl rfl hcalls hf
  obtain ⟨-, hstep, -⟩ := Along.append.mp hback
  have hown := own_of_sound (run_sound (answersFor_of_idle (Along.append.mp hidle).1))
  have hsound : (accountRun P pre : AccountSystem ι α δ).Sound P fun _ _ => True :=
    run_sound_any P pre
  rw [accountRun] at hown hsound
  generalize exec (AccountSystem.step P) (AccountSystem.init P : AccountSystem ι α δ) pre = s at *
  have hcall : ∃ se, s.sessionEvent P y (y, e) = some se ∧ se.calls = true := by
    cases e with
    | createAndJoinRoom => exact ⟨_, if_pos rfl, rfl⟩
    | joinRoomWithRID => exact ⟨_, if_pos rfl, rfl⟩
    | _ => cases hcalls
  obtain ⟨se, hse, hc⟩ := hcall
  obtain ⟨user, hu, hentry, hauth⟩ := hstep se hse hc hf
  rw [usersEntry_session (hsound.phones y)] at hentry
  -- the session's user is the phone's, and that is an account's own
  obtain ⟨properties, hp, huser⟩ := Option.bind_eq_some_iff.mp hu
  obtain ⟨account, rfl⟩ := hown.currentUser y properties hp
  rw [user_properties] at huser
  cases huser
  obtain ⟨b, hb, hbu⟩ := Option.map_eq_some_iff.mp hauth
  obtain rfl := P.uid_injective hbu
  exact ⟨b, hb, hentry⟩

end

/-- In that run both play under their own names. -/
theorem entry_of_both :
    Along (AccountSystem.step annAndBob) (fun s e => e.1 = () → e.2.calls = true →
        (s.phones ()).front = .menu → ∃ account, (s.phones ()).auth = some account ∧
          (s.phones ()).usersEntry =
            some (annAndBob.uid account, userEntry (annAndBob.user account)))
      (AccountSystem.init annAndBob : AccountSystem Unit Bool LeafTree) annThenBobRegister :=
  entry_of_account (by decide +kernel) (by decide +kernel)

end Unplug.App
