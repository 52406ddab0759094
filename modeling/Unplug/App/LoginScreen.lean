import Unplug.App.Session

/-! # The login screen

`login:completion:` runs its completion when Facebook refuses and when the user has been
fetched, and not when the sign-in fails. So the login screen has one login under way at
most, and it is dead exactly if a sign-in has failed since its process started. -/
namespace Unplug.App
open Unplug.Store Unplug.Firebase Unplug.Machine

/-- The request is a stage of a login that its screen waits for. -/
def Request.ofLogin : Request → Bool
  | .logInWithReadPermissions => true
  | .signInWithCredential => true
  | .getUserWithUID _ .login => true
  | .getUserWithUID _ .launch => false
  | .graphRequest => false

namespace Session
variable {s : Session} {e : SessionEvent}

/-- How many logins are under way. -/
def logins (s : Session) : ℕ := s.requests.countP Request.ofLogin

/-- The menu waits for no login, the login screen for one at most, and for none while its
button is enabled. -/
def OneLogin (s : Session) : Prop :=
  match s.front with
  | .menu => s.logins = 0
  | .login => s.logins + s.loginEnabled.toNat ≤ 1

/-- The login screen is in front, its button is disabled and nothing will enable it. -/
def Stuck (s : Session) : Prop := s.front = .login ∧ s.loginEnabled = false ∧ s.logins = 0

instance (s : Session) : Decidable s.Stuck := inferInstanceAs (Decidable (_ ∧ _ ∧ _))

/-- A sign-in fails. -/
def Fails (s : Session) (e : SessionEvent) : Prop :=
  ∃ k, e = .signedIn k none ∧ s.requests[k]? = some .signInWithCredential

/-- The process ends in the step: it is launched anew, or `createUser:` raises for want
of an account. -/
def Ends (s : Session) (e : SessionEvent) : Prop :=
  e = .launch ∨ s.auth = none ∧ ∃ k name, e = .gotName k (some name) ∧
    s.requests[k]? = some .graphRequest

theorem oneLogin_launch (auth : Option String) : (launch auth).OneLogin := by
  cases auth with
  | none => exact le_rfl
  | some uid => rfl

theorem not_stuck_launch (auth : Option String) : ¬ (launch auth).Stuck := by
  intro h
  cases h.2.1

/-- What is left of the logins when a request is answered and another one made. -/
theorem logins_answered {k : ℕ} {r : Request} (hk : s.requests[k]? = some r) (new : List Request) :
    (s.requests.eraseIdx k ++ new).countP Request.ofLogin + r.ofLogin.toNat =
      s.logins + new.countP Request.ofLogin := by
  have herase := countP_eraseIdx hk Request.ofLogin
  rw [List.countP_append]
  unfold logins
  omega

theorem front_of_login {k : ℕ} {r : Request} (h : s.OneLogin) (hk : s.requests[k]? = some r)
    (hr : r.ofLogin = true) : s.front = .login ∧ s.loginEnabled = false ∧ s.logins = 1 := by
  have hpos : 0 < s.logins := List.countP_pos_iff.mpr ⟨r, List.mem_of_getElem? hk, hr⟩
  unfold OneLogin at h
  cases hf : s.front with
  | menu =>
    rw [hf] at h
    simp only at h
    omega
  | login =>
    rw [hf] at h
    simp only at h
    cases hb : s.loginEnabled with
    | true =>
      rw [hb, Bool.toNat_true] at h
      omega
    | false =>
      rw [hb, Bool.toNat_false] at h
      exact ⟨rfl, rfl, by omega⟩

/-- The login that is answered was the only one. -/
theorem no_logins_left {k : ℕ} {r : Request} (h : s.OneLogin) (hk : s.requests[k]? = some r)
    (hr : r.ofLogin = true) : (s.requests.eraseIdx k).countP Request.ofLogin = 0 := by
  have hleft := logins_answered hk []
  rw [(front_of_login h hk hr).2.2, hr, List.append_nil, List.countP_nil, Bool.toNat_true] at hleft
  omega

/-- An answer that takes no login off the list keeps what the screen waits for. -/
theorem oneLogin_of_same (h : s.OneLogin) {s' : Session} (hf : s'.front = s.front)
    (hb : s'.loginEnabled = s.loginEnabled) (hl : s'.logins = s.logins) : s'.OneLogin := by
  unfold OneLogin at h ⊢
  rw [hf, hb, hl]
  exact h

theorem stuck_of_same {s' : Session} (hf : s'.front = s.front)
    (hb : s'.loginEnabled = s.loginEnabled) (hl : s'.logins = s.logins) : s'.Stuck ↔ s.Stuck := by
  unfold Stuck
  rw [hf, hb, hl]

/-- What a step does to the login screen: nothing, or the process ends, or a login fails
for good, or the screen comes alive again or gives way. -/
inductive LoginStep (s : Session) (e : SessionEvent) (s' : Session) : Prop
  | same : ¬ s.Ends e → ¬ s.Fails e → s'.front = s.front → s'.loginEnabled = s.loginEnabled →
      s'.logins = s.logins → LoginStep s e s'
  | ended : s.Ends e → (∃ auth, s' = launch auth) → LoginStep s e s'
  | failed : s.Fails e → s'.Stuck → LoginStep s e s'
  | alive : ¬ s.Ends e → ¬ s.Fails e → ¬ s.Stuck → s'.OneLogin → ¬ s'.Stuck → LoginStep s e s'

theorem not_ends (hlaunch : e ≠ .launch) (hname : ∀ k name, e ≠ .gotName k name) :
    ¬ s.Ends e := by
  rintro (h | ⟨-, k, name, h, -⟩)
  · exact hlaunch h
  · exact hname k _ h

theorem not_fails (hsign : ∀ k uid, e ≠ .signedIn k uid) : ¬ s.Fails e := by
  rintro ⟨k, h, -⟩
  exact hsign k _ h

theorem loginStep_callFromMenu (he : e.calls = true) : LoginStep s e s.callFromMenu := by
  have hends : ¬ s.Ends e :=
    not_ends (fun h => by rw [h] at he; cases he) fun k name h => by rw [h] at he; cases he
  have hfails : ¬ s.Fails e := not_fails fun k uid h => by rw [h] at he; cases he
  unfold callFromMenu
  split
  · rename_i hx
    refine .alive hends hfails (fun hs => ?_) (oneLogin_launch _) (not_stuck_launch _)
    rw [hs.1] at hx
    cases hx.1
  · exact .same hends hfails rfl rfl rfl

theorem loginStep_gotUser (h : s.OneLogin) (k : ℕ) (record : Option (String × ℚ)) :
    LoginStep s (.gotUser k record) (s.gotUser k record) := by
  have hends : ¬ s.Ends (.gotUser k record) := not_ends (by simp) (by simp)
  have hfails : ¬ s.Fails (.gotUser k record) := not_fails (by simp)
  unfold gotUser
  split
  · rename_i uid asker hk
    cases asker with
    | launch =>
      refine .same hends hfails rfl rfl ?_
      have hleft := logins_answered hk []
      simp only [List.append_nil, List.countP_nil, Request.ofLogin, Bool.toNat_false] at hleft
      exact hleft
    | login =>
      obtain ⟨-, -, hone⟩ := front_of_login h hk rfl
      have hleft := no_logins_left h hk rfl
      have hlive : ¬ s.Stuck := fun hs => by rw [hs.2.2] at hone; cases hone
      cases record with
      | none =>
        refine .alive hends hfails hlive ?_ fun hs => by cases hs.1
        exact (List.countP_append ..).trans (by rw [hleft]; rfl)
      | some record => exact .alive hends hfails hlive hleft fun hs => by cases hs.1
  · exact .same hends hfails rfl rfl rfl

theorem loginStep_gotName (k : ℕ) (name : Option String) :
    LoginStep s (.gotName k name) (s.gotName k name) := by
  have hfails : ¬ s.Fails (.gotName k name) := not_fails (by simp)
  have hends : (s.auth ≠ none ∨ name = none ∨ s.requests[k]? ≠ some .graphRequest) →
      ¬ s.Ends (.gotName k name) := by
    rintro hno (hx | ⟨ha, _, _, hx, hk⟩)
    · cases hx
    · cases hx
      rcases hno with hno | hno | hno
      · exact hno ha
      · cases hno
      · exact hno hk
  have hleft : s.requests[k]? = some .graphRequest →
      (s.requests.eraseIdx k).countP Request.ofLogin = s.logins := by
    intro hk
    have hleft := logins_answered hk []
    rw [List.append_nil] at hleft
    exact hleft
  by_cases hk : s.requests[k]? = some .graphRequest
  · cases name with
    | none =>
      simp only [gotName, hk]
      exact .same (hends (.inr (.inl rfl))) hfails rfl rfl (hleft hk)
    | some name =>
      cases ha : s.auth with
      | none =>
        simp only [gotName, hk, ha]
        exact .ended (.inr ⟨ha, k, name, rfl, hk⟩) ⟨none, rfl⟩
      | some uid =>
        simp only [gotName, hk, ha]
        exact .same (hends (.inl (by rw [ha]; simp))) hfails rfl rfl (hleft hk)
  · have hsame : s.gotName k name = s := by
      unfold gotName
      split
      · exact absurd ‹_› hk
      · exact absurd ‹_› hk
      · exact absurd ‹_› hk
      · rfl
    rw [hsame]
    exact .same (hends (.inr (.inr hk))) hfails rfl rfl rfl

theorem loginStep_loginTUI (h : s.OneLogin) : LoginStep s .loginTUI (s.step .loginTUI) := by
  have hends : ¬ s.Ends .loginTUI := not_ends (by simp) (by simp)
  have hfails : ¬ s.Fails .loginTUI := not_fails (by simp)
  simp only [step]
  split
  · rename_i hx
    have hzero : s.logins = 0 := by
      unfold OneLogin at h
      rw [hx.1, hx.2] at h
      simpa using h
    have hone : (s.requests ++ [Request.logInWithReadPermissions]).countP Request.ofLogin = 1 := by
      rw [List.countP_append, show s.requests.countP Request.ofLogin = 0 from hzero]
      rfl
    refine .alive hends hfails (fun hs => ?_) ?_ fun hs => ?_
    · exact absurd (hx.2.symm.trans hs.2.1) (by simp)
    · simp only [OneLogin, hx.1, logins, hone]
      exact le_rfl
    · have hnone := hs.2.2
      simp only [logins, hone] at hnone
      cases hnone
  · exact .same hends hfails rfl rfl rfl

theorem loginStep_loggedIn (h : s.OneLogin) (k : ℕ) (granted : Bool) :
    LoginStep s (.loggedIn k granted) (s.step (.loggedIn k granted)) := by
  have hends : ¬ s.Ends (.loggedIn k granted) := not_ends (by simp) (by simp)
  have hfails : ¬ s.Fails (.loggedIn k granted) := not_fails (by simp)
  simp only [step]
  split
  · rename_i hk
    obtain ⟨hf, -, hone⟩ := front_of_login h hk rfl
    cases granted with
    | true =>
      exact .same hends hfails rfl rfl
        (Nat.add_right_cancel (logins_answered hk [.signInWithCredential]))
    | false =>
      have hleft := no_logins_left h hk rfl
      refine .alive hends hfails (fun hs => by rw [hs.2.2] at hone; cases hone) ?_
        fun hs => by cases hs.2.1
      simp only [OneLogin, hf, logins, hleft, Bool.false_eq_true, if_false]
      exact le_rfl
  · exact .same hends hfails rfl rfl rfl

/-- A sign-in that fails leaves the screen as the tap left it, and nothing under way. -/
theorem loginStep_signedIn (h : s.OneLogin) (k : ℕ) (uid : Option String) :
    LoginStep s (.signedIn k uid) (s.step (.signedIn k uid)) := by
  have hends : ¬ s.Ends (.signedIn k uid) := not_ends (by simp) (by simp)
  simp only [step]
  split
  · rename_i hk
    obtain ⟨hf, hb, -⟩ := front_of_login h hk rfl
    cases uid with
    | none => exact .failed ⟨k, rfl, hk⟩ ⟨hf, hb, no_logins_left h hk rfl⟩
    | some uid =>
      refine .same hends (fun hx => ?_) rfl rfl
        (Nat.add_right_cancel (logins_answered hk [.getUserWithUID uid .login]))
      obtain ⟨_, hx, -⟩ := hx
      cases hx
  · rename_i hk
    refine .same hends (fun hx => ?_) rfl rfl rfl
    obtain ⟨_, hx, hk'⟩ := hx
    cases hx
    exact hk hk'

theorem loginStep_logoutTUI (h : s.OneLogin) (status : Bool) :
    LoginStep s (.logoutTUI status) (s.step (.logoutTUI status)) := by
  have hends : ¬ s.Ends (.logoutTUI status) := not_ends (by simp) (by simp)
  have hfails : ¬ s.Fails (.logoutTUI status) := not_fails (by simp)
  simp only [step]
  split
  · rename_i hf
    refine .alive hends hfails (fun hs => ?_) ?_ fun hs => by cases hs.2.1
    · exact absurd (hf.symm.trans hs.1) (by simp)
    have hzero : s.logins = 0 := by
      unfold OneLogin at h
      rw [hf] at h
      exact h
    simp only [OneLogin, logins, Bool.toNat_true]
    unfold logins at hzero
    omega
  · exact .same hends hfails rfl rfl rfl

/-- **A step of the login screen.** -/
theorem loginStep_step (h : s.OneLogin) (e : SessionEvent) : LoginStep s e (s.step e) := by
  cases e with
  | launch => exact .ended (.inl rfl) ⟨_, rfl⟩
  | loginTUI => exact loginStep_loginTUI h
  | loggedIn k granted => exact loginStep_loggedIn h k granted
  | signedIn k uid => exact loginStep_signedIn h k uid
  | gotUser k record => exact loginStep_gotUser h k record
  | gotName k name => exact loginStep_gotName k name
  | logoutTUI status => exact loginStep_logoutTUI h status
  | createAndJoinRoom => exact loginStep_callFromMenu rfl
  | joinRoomWithRID => exact loginStep_callFromMenu rfl

theorem OneLogin.step (h : s.OneLogin) (e : SessionEvent) : (s.step e).OneLogin := by
  cases loginStep_step h e with
  | same _ _ hf hb hl => exact oneLogin_of_same h hf hb hl
  | ended _ hx =>
    obtain ⟨auth, hx⟩ := hx
    rw [hx]
    exact oneLogin_launch auth
  | failed _ hs =>
    simp only [OneLogin, hs.1, hs.2.1, hs.2.2]
    exact Nat.zero_le 1
  | alive _ _ _ ho _ => exact ho

/-- The screen is dead after a step: it was dead before in a process that goes on, or a
sign-in fails. -/
theorem stuck_step (h : s.OneLogin) (e : SessionEvent) :
    (s.step e).Stuck ↔ (s.Stuck ∧ ¬ s.Ends e) ∨ s.Fails e := by
  have hnot : s.Fails e → ¬ s.Ends e := by
    rintro ⟨k, rfl, -⟩ (hx | ⟨-, _, _, hx, -⟩) <;> cases hx
  cases loginStep_step h e with
  | same hends hfails hf hb hl =>
    rw [stuck_of_same hf hb hl]
    simp [hends, hfails]
  | ended hends hx =>
    obtain ⟨auth, hx⟩ := hx
    rw [hx]
    refine iff_of_false (not_stuck_launch auth) ?_
    rintro (hs | hfails)
    · exact hs.2 hends
    · exact hnot hfails hends
  | failed hfails hs => exact iff_of_true hs (.inr hfails)
  | alive _ hfails hlive _ hs =>
    refine iff_of_false hs ?_
    rintro (hx | hx)
    · exact hlive hx.1
    · exact hfails hx

end Session

theorem run_oneLogin (stored : Option String) (evs : List SessionEvent) :
    (sessionRun stored evs).OneLogin :=
  exec_invariant (P := fun _ _ => True) (Session.oneLogin_launch stored)
    (fun _ e h _ => h.step e) (along_iff_split.mpr fun _ _ _ _ => trivial)

/-- **The login screen is dead exactly if a sign-in failed.** Its button is disabled and no
login is under way if and only if a sign-in has failed since the process started. -/
theorem stuck_iff_failed (stored : Option String) (evs : List SessionEvent) :
    (sessionRun stored evs).Stuck ↔ ∃ pre e post, evs = pre ++ e :: post ∧
      (sessionRun stored pre).Fails e ∧
      Along Session.step (fun s e => ¬ s.Ends e) (sessionRun stored (pre ++ [e])) post := by
  induction evs using List.reverseRecOn with
  | nil =>
    refine iff_of_false (Session.not_stuck_launch stored) ?_
    rintro ⟨pre, e, post, heq, -⟩
    simp at heq
  | append_singleton evs e ih =>
    rw [show sessionRun stored (evs ++ [e]) = (sessionRun stored evs).step e from
      exec_concat _ _ _, Session.stuck_step (run_oneLogin stored evs), ih]
    constructor
    · rintro (⟨⟨pre, e', post, rfl, hf, hpost⟩, hends⟩ | hf)
      · refine ⟨pre, e', post ++ [e], by simp, hf, Along.concat.mpr ⟨hpost, ?_⟩⟩
        rw [sessionRun, ← exec_append, List.append_assoc]
        exact hends
      · exact ⟨evs, e, [], rfl, hf, trivial⟩
    · rintro ⟨pre, e', post, heq, hf, hpost⟩
      rcases List.eq_nil_or_concat post with rfl | ⟨post, e'', rfl⟩
      · obtain ⟨rfl, he⟩ := List.append_inj' heq rfl
        cases he
        exact .inr hf
      · have heq' : evs ++ [e] = (pre ++ e' :: post) ++ [e''] := by
          rw [heq]
          simp
        obtain ⟨rfl, he⟩ := List.append_inj' heq' rfl
        cases he
        rw [List.concat_eq_append] at hpost
        obtain ⟨hpost, hends⟩ := Along.concat.mp hpost
        refine .inl ⟨⟨pre, e', post, rfl, hf, hpost⟩, ?_⟩
        rw [sessionRun, ← exec_append, List.append_assoc] at hends
        exact hends

-- a sign-in that fails, and one that is given up
example : (sessionRun none [.loginTUI, .loggedIn 0 true, .signedIn 0 none]).Stuck ∧
    ¬ (sessionRun none [.loginTUI, .loggedIn 0 false]).Stuck := by decide

end Unplug.App
