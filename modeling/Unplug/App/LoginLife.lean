import Unplug.App.LoginScreen
import Unplug.Machine.Endless
import Mathlib.Tactic.IntervalCases

/-! # Logins that end

A login makes three requests, one after the other, and each answer brings it nearer to its
end. So where the requests of logins are answered, a tap gives way to the menu or to an
enabled button, and nothing but a failed sign-in holds it up. -/
namespace Unplug.App
open Unplug.Store Unplug.Firebase Unplug.Machine

/-- How many answers the login of a request is away from its end. -/
def Request.stage : Request → ℕ
  | .logInWithReadPermissions => 3
  | .signInWithCredential => 2
  | .getUserWithUID _ .login => 1
  | .getUserWithUID _ .launch => 0
  | .graphRequest => 0

theorem Request.stage_pos {r : Request} : 0 < r.stage ↔ r.ofLogin = true := by
  cases r with
  | getUserWithUID uid asker => cases asker <;> simp [stage, ofLogin]
  | _ => simp [stage, ofLogin]

namespace Session
variable {s : Session} {e : SessionEvent}

/-- How many answers the logins under way are away from their end. -/
def distance (s : Session) : ℕ := (s.requests.map Request.stage).sum

/-- The menu is in front, or the login button is enabled. -/
def Responsive (s : Session) : Prop := s.front = .menu ∨ s.loginEnabled = true

instance (s : Session) : Decidable s.Responsive := inferInstanceAs (Decidable (_ ∨ _))

/-- The event answers a request of a login. -/
def Answers (s : Session) (e : SessionEvent) : Prop :=
  (∃ k granted, e = .loggedIn k granted ∧ s.requests[k]? = some .logInWithReadPermissions) ∨
  (∃ k uid, e = .signedIn k uid ∧ s.requests[k]? = some .signInWithCredential) ∨
  ∃ k uid record, e = .gotUser k record ∧ s.requests[k]? = some (.getUserWithUID uid .login)

theorem distance_pos : 0 < s.distance ↔ 0 < s.logins := by
  unfold distance logins
  rw [List.countP_pos_iff, List.sum_pos_iff_exists_pos_nat]
  simp only [List.mem_map, exists_exists_and_eq_and, Request.stage_pos]

/-- The distance when a request is answered and another one made. -/
theorem distance_answered {k : ℕ} {r : Request} (hk : s.requests[k]? = some r)
    (new : List Request) :
    ((s.requests.eraseIdx k ++ new).map Request.stage).sum + r.stage =
      s.distance + (new.map Request.stage).sum := by
  obtain ⟨hlt, rfl⟩ := List.getElem?_eq_some_iff.mp hk
  have hsum := ((List.getElem_cons_eraseIdx_perm hlt).map Request.stage).sum_eq
  rw [List.map_cons, List.sum_cons] at hsum
  rw [List.map_append, List.sum_append]
  unfold distance
  omega

theorem distance_erased {k : ℕ} {r : Request} (hk : s.requests[k]? = some r) (hr : r.stage = 0) :
    ((s.requests.eraseIdx k).map Request.stage).sum = s.distance := by
  have hsame := distance_answered hk []
  rwa [hr, List.append_nil] at hsame

/-- What a step does to a login screen that is not responsive: it gets so, a sign-in fails,
a login gets nearer to its end, or no login's request is answered. -/
inductive Approach (s : Session) (e : SessionEvent) (s' : Session) : Prop
  | responsive : s'.Responsive → Approach s e s'
  | failed : s.Fails e → Approach s e s'
  | nearer : s'.front = .login → s'.loginEnabled = false → s'.distance < s.distance →
      Approach s e s'
  | waits : s'.front = .login → s'.loginEnabled = false → s'.distance = s.distance →
      ¬ s.Answers e → Approach s e s'

theorem not_answers (hlogged : ∀ k granted, e ≠ .loggedIn k granted)
    (hsigned : ∀ k uid, e ≠ .signedIn k uid) (huser : ∀ k record, e ≠ .gotUser k record) :
    ¬ s.Answers e := by
  rintro (⟨k, granted, h, -⟩ | ⟨k, uid, h, -⟩ | ⟨k, uid, record, h, -⟩)
  · exact hlogged k granted h
  · exact hsigned k uid h
  · exact huser k record h

theorem approach_loggedIn (hf : s.front = .login) (hb : s.loginEnabled = false) (k : ℕ)
    (granted : Bool) : Approach s (.loggedIn k granted) (s.step (.loggedIn k granted)) := by
  simp only [step]
  split
  · rename_i hk
    cases granted with
    | false => exact .responsive (.inr rfl)
    | true =>
      refine .nearer hf hb ?_
      have hnear := distance_answered hk [.signInWithCredential]
      simp only [List.map_cons, List.map_nil, List.sum_cons, List.sum_nil, Request.stage] at hnear
      exact Nat.lt_of_add_lt_add_right (hnear.trans_lt (by omega))
  · rename_i hk
    refine .waits hf hb rfl ?_
    rintro (⟨_, _, h, hk'⟩ | ⟨_, _, h, -⟩ | ⟨_, _, _, h, -⟩) <;> cases h
    exact hk hk'

theorem approach_signedIn (hf : s.front = .login) (hb : s.loginEnabled = false) (k : ℕ)
    (uid : Option String) : Approach s (.signedIn k uid) (s.step (.signedIn k uid)) := by
  simp only [step]
  split
  · rename_i hk
    cases uid with
    | none => exact .failed ⟨k, rfl, hk⟩
    | some uid =>
      refine .nearer hf hb ?_
      have hnear := distance_answered hk [.getUserWithUID uid .login]
      simp only [List.map_cons, List.map_nil, List.sum_cons, List.sum_nil, Request.stage] at hnear
      exact Nat.lt_of_add_lt_add_right (hnear.trans_lt (by omega))
  · rename_i hk
    refine .waits hf hb rfl ?_
    rintro (⟨_, _, h, -⟩ | ⟨_, _, h, hk'⟩ | ⟨_, _, _, h, -⟩) <;> cases h
    exact hk hk'

theorem approach_gotUser (hf : s.front = .login) (hb : s.loginEnabled = false) (k : ℕ)
    (record : Option (String × ℚ)) : Approach s (.gotUser k record) (s.gotUser k record) := by
  unfold gotUser
  split
  · rename_i uid asker hk
    cases asker with
    | login =>
      cases record with
      | none => exact .responsive (.inl rfl)
      | some record => exact .responsive (.inl rfl)
    | launch =>
      refine .waits hf hb (distance_erased hk rfl) ?_
      rintro (⟨_, _, h, -⟩ | ⟨_, _, h, -⟩ | ⟨_, _, _, h, hk'⟩) <;> cases h
      rw [hk] at hk'
      cases hk'
  · rename_i hk
    refine .waits hf hb rfl ?_
    rintro (⟨_, _, h, -⟩ | ⟨_, _, h, -⟩ | ⟨_, _, _, h, hk'⟩) <;> cases h
    exact hk _ _ hk'

theorem approach_gotName (hf : s.front = .login) (hb : s.loginEnabled = false) (k : ℕ)
    (name : Option String) : Approach s (.gotName k name) (s.gotName k name) := by
  have hno : ¬ s.Answers (.gotName k name) := not_answers (by simp) (by simp) (by simp)
  unfold gotName
  split
  · rename_i hk _
    exact .waits hf hb (distance_erased hk rfl) hno
  · exact .responsive (.inr rfl)
  · rename_i hk
    exact .waits hf hb (distance_erased hk rfl) hno
  · exact .waits hf hb rfl hno

/-- **A step of a screen that waits.** -/
theorem approach_step (hf : s.front = .login) (hb : s.loginEnabled = false) (e : SessionEvent) :
    Approach s e (s.step e) := by
  have hcall : s.callFromMenu = s := if_neg fun h => by rw [hf] at h; cases h.1
  cases e with
  | launch => exact .responsive (.inr rfl)
  | loginTUI =>
    simp only [step, hb, Bool.false_eq_true, and_false, if_false]
    exact .waits hf hb rfl (not_answers (by simp) (by simp) (by simp))
  | loggedIn k granted => exact approach_loggedIn hf hb k granted
  | signedIn k uid => exact approach_signedIn hf hb k uid
  | gotUser k record => exact approach_gotUser hf hb k record
  | gotName k name => exact approach_gotName hf hb k name
  | logoutTUI status =>
    simp only [step, hf, reduceCtorEq, if_false]
    exact .waits hf hb rfl (not_answers (by simp) (by simp) (by simp))
  | createAndJoinRoom =>
    simp only [step, hcall]
    exact .waits hf hb rfl (not_answers (by simp) (by simp) (by simp))
  | joinRoomWithRID =>
    simp only [step, hcall]
    exact .waits hf hb rfl (not_answers (by simp) (by simp) (by simp))

theorem Ends.responsive (h : s.Ends e) : (s.step e).Responsive := by
  rcases h with rfl | ⟨ha, k, name, rfl, hk⟩
  · exact .inr rfl
  · simp only [step, gotName, hk, ha]
    exact .inr rfl

theorem Stuck.not_responsive (h : s.Stuck) : ¬ s.Responsive := by
  rintro (hf | hb)
  · rw [h.1] at hf
    cases hf
  · rw [h.2.1] at hb
    cases hb

end Session

/-! ## Endless runs -/

section
variable {stored : Option String} {inputs : ℕ → SessionEvent}

/-- The session at a moment of an endless run. -/
def sessionMoment (stored : Option String) (inputs : ℕ → SessionEvent) (n : ℕ) : Session :=
  sessionRun stored (upTo inputs n)

theorem sessionMoment_succ (n : ℕ) :
    sessionMoment stored inputs (n + 1) = (sessionMoment stored inputs n).step (inputs n) := by
  unfold sessionMoment
  rw [upTo_succ]
  exact exec_concat _ _ _

/-- While a login is under way, a request of a login will be answered. -/
def AnswersLogins (stored : Option String) (inputs : ℕ → SessionEvent) : Prop :=
  ∀ n, 0 < (sessionMoment stored inputs n).logins → ∃ m, n ≤ m ∧
    ((sessionMoment stored inputs m).logins = 0 ∨
      (sessionMoment stored inputs m).Answers (inputs m))

/-- A screen that waits, with its logins `k` answers away from their end. -/
def WaitsAt (stored : Option String) (inputs : ℕ → SessionEvent) (k n : ℕ) : Prop :=
  (sessionMoment stored inputs n).front = .login ∧
    (sessionMoment stored inputs n).loginEnabled = false ∧
    (sessionMoment stored inputs n).distance = k

/-- A screen that waits gets responsive, or it is dead. -/
theorem waits_leadsTo (hanswers : AnswersLogins stored inputs) (k : ℕ) :
    LeadsTo (WaitsAt stored inputs k) fun n => (sessionMoment stored inputs n).Responsive ∨
      (sessionMoment stored inputs n).Stuck := by
  refine leadsTo_of_descent (fun k => ?_) k
  rcases Nat.eq_zero_or_pos k with rfl | hpos
  · -- no login is under way
    refine .of_imp fun n hn => .inl (.inr ⟨hn.1, hn.2.1, ?_⟩)
    by_contra hne
    exact absurd (Session.distance_pos.mpr (Nat.pos_of_ne_zero hne)) (by rw [hn.2.2]; simp)
  have hstep : ∀ n, WaitsAt stored inputs k n →
      (((sessionMoment stored inputs (n + 1)).Responsive ∨
        (sessionMoment stored inputs (n + 1)).Stuck) ∨
        ∃ j, j < k ∧ WaitsAt stored inputs j (n + 1)) ∨
      WaitsAt stored inputs k (n + 1) ∧ ¬ (sessionMoment stored inputs n).Answers (inputs n) := by
    intro n hn
    obtain ⟨hf, hb, rfl⟩ := hn
    unfold WaitsAt
    rw [sessionMoment_succ]
    cases Session.approach_step hf hb (inputs n) with
    | responsive hr => exact .inl (.inl (.inl hr))
    | failed hfails =>
      exact .inl (.inl (.inr ((Session.stuck_step (run_oneLogin stored _) _).mpr (.inr hfails))))
    | nearer hf' hb' hd => exact .inl (.inr ⟨_, hd, hf', hb', rfl⟩)
    | waits hf' hb' hd hno => exact .inr ⟨⟨hf', hb', hd⟩, hno⟩
  refine leadsTo_of_helpful (P := WaitsAt stored inputs k)
    (H := fun n => (sessionMoment stored inputs n).logins = 0 ∨
      (sessionMoment stored inputs n).Answers (inputs n))
    (fun n hn => (hstep n hn).symm.imp_left And.left) (fun n hn => ?_) fun n hn hhelp => ?_
  · obtain ⟨m, hm, h⟩ := hanswers n (Session.distance_pos.mp (by rw [hn.2.2]; exact hpos))
    exact ⟨m, hm, .inr h⟩
  · rcases hstep n hn with hdone | ⟨-, hno⟩
    · exact hdone
    · rcases hhelp with hzero | ha
      · have hlogins := Session.distance_pos.mp (by rw [hn.2.2]; exact hpos)
        omega
      · exact absurd ha hno

/-- A dead screen has had a failed sign-in, and its process has not ended since. -/
theorem failed_of_stuck {n : ℕ} (h : (sessionMoment stored inputs n).Stuck) :
    ∃ i, i < n ∧ (sessionMoment stored inputs i).Fails (inputs i) ∧
      ∀ m, i < m → m < n → ¬ (sessionMoment stored inputs m).Ends (inputs m) := by
  induction n with
  | zero => exact absurd h (Session.not_stuck_launch stored)
  | succ n ih =>
    rw [sessionMoment_succ] at h
    rcases (Session.stuck_step (run_oneLogin stored _) _).mp h with ⟨hs, hno⟩ | hfails
    · obtain ⟨i, hi, hfails, hsince⟩ := ih hs
      refine ⟨i, by omega, hfails, fun m him hmn => ?_⟩
      rcases Nat.lt_succ_iff_lt_or_eq.mp hmn with hlt | rfl
      · exact hsince m him hlt
      · exact hno
    · exact ⟨n, by omega, hfails, fun m hnm hmn => by omega⟩

/-- After a failed sign-in the screen is dead until the process ends. -/
theorem stuck_of_failed {i n : ℕ} (hfails : (sessionMoment stored inputs i).Fails (inputs i))
    (hin : i < n) (hsince : ∀ m, i < m → ¬ (sessionMoment stored inputs m).Ends (inputs m)) :
    (sessionMoment stored inputs n).Stuck := by
  induction n, hin using Nat.le_induction with
  | base =>
    rw [sessionMoment_succ]
    exact (Session.stuck_step (run_oneLogin stored _) _).mpr (.inr hfails)
  | succ n hin ih =>
    rw [sessionMoment_succ]
    exact (Session.stuck_step (run_oneLogin stored _) _).mpr (.inl ⟨ih, hsince n hin⟩)

/-- **The login screen comes back, exactly if failed sign-ins end the process.** Where the
requests of logins are answered, the menu or an enabled button is always to come, if and
only if the process ends after every failed sign-in. -/
theorem responsive_iff (hanswers : AnswersLogins stored inputs) :
    (∀ n, ∃ m, n ≤ m ∧ (sessionMoment stored inputs m).Responsive) ↔
      ∀ i, (sessionMoment stored inputs i).Fails (inputs i) →
        ∃ m, i < m ∧ (sessionMoment stored inputs m).Ends (inputs m) := by
  constructor
  · intro h i hfails
    by_contra hno
    obtain ⟨m, him, hm⟩ := h (i + 1)
    exact (stuck_of_failed hfails him fun k hik hends => hno ⟨k, hik, hends⟩).not_responsive hm
  · intro h n
    by_cases hr : (sessionMoment stored inputs n).Responsive
    · exact ⟨n, le_rfl, hr⟩
    have hf : (sessionMoment stored inputs n).front = .login := by
      cases hx : (sessionMoment stored inputs n).front with
      | login => rfl
      | menu => exact absurd (.inl hx) hr
    have hb : (sessionMoment stored inputs n).loginEnabled = false :=
      Bool.eq_false_of_not_eq_true fun hx => hr (.inr hx)
    obtain ⟨m, hnm, hm | hs⟩ := waits_leadsTo hanswers _ n ⟨hf, hb, rfl⟩
    · exact ⟨m, hnm, hm⟩
    · -- the dead screen lasts until the process ends
      obtain ⟨i, -, hfails, hsince⟩ := failed_of_stuck hs
      obtain ⟨k, hik, hends⟩ := h i hfails
      have hmk : m ≤ k := by
        by_contra hkm
        exact hsince k hik (by omega) hends
      refine ⟨k + 1, by omega, ?_⟩
      rw [sessionMoment_succ]
      exact hends.responsive

end

/-- A sign-in that fails, a new process, and a login that goes through. -/
def secondTry : List SessionEvent :=
  [.loginTUI, .loggedIn 0 true, .signedIn 0 none, .launch, .loginTUI, .loggedIn 0 true,
    .signedIn 0 (some "uidA"), .gotUser 0 (some ("Ann", 0))]

/-- The run, and then taps in the menu. -/
def secondTryThenTaps : ℕ → SessionEvent := continued secondTry fun _ => .createAndJoinRoom

theorem sessionMoment_secondTry {n : ℕ} (h : 8 ≤ n) :
    sessionMoment none secondTryThenTaps n = sessionRun none secondTry := by
  induction n, h using Nat.le_induction with
  | base =>
    unfold sessionMoment secondTryThenTaps
    rw [upTo_continued _ (by decide)]
    rfl
  | succ n h ih =>
    rw [sessionMoment_succ, ih, secondTryThenTaps, continued_of_le _ h]
    decide

/-- The screen is dead after the failure, and comes back. -/
theorem responsive_secondTry : (sessionMoment none secondTryThenTaps 3).Stuck ∧
    ∀ n, ∃ m, n ≤ m ∧ (sessionMoment none secondTryThenTaps m).Responsive := by
  refine ⟨by decide, (responsive_iff fun n _ => ?_).mpr fun i hfails => ?_⟩
  · refine ⟨max n 8, le_max_left _ _, .inl ?_⟩
    rw [sessionMoment_secondTry (le_max_right _ _)]
    decide
  · obtain ⟨k, hsign, -⟩ := hfails
    refine ⟨3, ?_, .inl rfl⟩
    by_contra hi
    rcases Nat.lt_or_ge i 8 with hlt | hge
    · interval_cases i <;> cases hsign
    · rw [secondTryThenTaps, continued_of_le _ hge] at hsign
      cases hsign

end Unplug.App
