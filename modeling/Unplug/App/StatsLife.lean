import Unplug.App.Navigation

/-! # The life of the stats controller

A process loads one stats controller. `StatsStep` is all that a step can do to
it; what else a step does to the listener and to the results follows it. -/
namespace Unplug.App
open Unplug.Store Unplug.Firebase Unplug.Machine RealtimeDatabase

namespace Client
section
variable {δ : Type*} [RealtimeDatabase δ]

/-- A step delivers the state `db` to the observer `o` of the client. -/
def Delivers (env : Env δ) (c : Client) (e : ClientEvent) (o : Observer) (db : δ) : Prop :=
  ∃ k i overlaid, e = .snapshot k i overlaid ∧ c.observers[k]? = some o ∧
    c.view env i overlaid = some db

/-- What a step can make of the stats controller. -/
inductive StatsStep (env : Env δ) (c : Client) (e : ClientEvent) :
    Option RoomStatsViewController → Option RoomStatsViewController → Prop
  | same {s} : StatsStep env c e s s
  | relaunched {s} : e = .relaunch → StatsStep env c e s none
  | loaded {o db id} (bet : Option ℚ) : Delivers env c e o db → o.block = .lobby id →
      started db o.ref = true → c.screens.head? = some (.lobby id) →
      StatsStep env c e none (some (.new bet))
  | observed {vc t rest rid} : e = .appear → c.transitions = t :: rest →
      t.appears = some .stats → c.currentRID = some rid →
      StatsStep env c e (some vc) (some { vc with observedRID := some rid })
  | lost {vc o db} : Delivers env c e o db → o.block = .stats → loserName db o.ref ≠ "" →
      StatsStep env c e (some vc) (some { vc with loserName := some (loserName db o.ref) })
  | labelled {vc o db betAmount startTime timeLimit} : Delivers env c e o db →
      o.block = .setUpLabel →
      getInfoForRID db o.ref = some (betAmount, startTime, timeLimit) →
      StatsStep env c e (some vc)
        (some { vc with betAmount, startTime, timeLimit, timer := .scheduled })
  | ticked {vc} : e = .updateTimer → vc.timer = .scheduled → vc.timeLeft env.now < 1 →
      StatsStep env c e (some vc) (some { vc with timer := .invalidated })
  | backgrounded {vc} : e = .didEnterBackground → c.delegate = true →
      StatsStep env c e (some vc) (some { vc with markBackgrounded := true })
  | locked {vc} : e = .lockcomplete → c.delegate = true →
      StatsStep env c e (some vc) (some { vc with markBackgrounded := false })

variable {c : Client}

theorem stats_performToResults (vc : RoomStatsViewController) :
    (c.performToResults vc).stats = some vc := by
  unfold performToResults present
  split <;> rfl

theorem stats_setUpLabel : c.setUpLabel.stats = c.stats :=
  setUpLabel_keeps Client.stats fun _ _ => rfl

theorem stats_performRoomStats (id : ℕ) :
    (c.performRoomStats id).stats =
      if c.screens.head? = some (.lobby id) then
        some (.new ((c.lobbies[id]?).bind (·.betAmount)))
      else c.stats := by
  unfold performRoomStats present
  simp only
  split
  · exact stats_setUpLabel
  · rfl

/-- No lobby is in front of the stats controller. -/
theorem Nav.stats_of_lobby (h : c.Nav) {id : ℕ} (hfront : c.screens.head? = some (.lobby id)) :
    c.stats = none := by
  obtain ⟨b, hs, hbase⟩ := h.shape.head_lobby hfront
  have hno : Screen.stats ∉ c.screens := by
    rw [hs]
    simp [hbase.no_stats]
  simpa [h.stats_iff] using hno

/-- A snapshot loads the stats controller, hands it a loser or sets its label. -/
theorem stats_snapshot (h : c.Nav) (env : Env δ) (k i : ℕ) (overlaid : Bool) :
    StatsStep env c (.snapshot k i overlaid) c.stats (c.snapshot env k i overlaid).stats := by
  unfold snapshot
  split
  · rename_i o db hk hv
    have hd : Delivers env c (.snapshot k i overlaid) o db := ⟨k, i, overlaid, rfl, hk, hv⟩
    obtain ⟨obs, -, heq⟩ := c.deliver_eq k o db
    simp only [heq]
    cases hb : o.block with
    | lobby id =>
      simp only [observeEventBlock]
      split
      · rename_i hst
        rw [stats_performRoomStats]
        split
        · rename_i hfront
          rw [h.stats_of_lobby hfront]
          exact .loaded _ hd hb hst hfront
        · exact .same
      · exact .same
    | stats =>
      simp only [listener]
      cases hs : c.stats with
      | none => exact .same
      | some vc =>
        simp only
        split
        · rename_i hn
          rw [stats_performToResults]
          exact .lost hd hb hn
        · exact .same
    | setUpLabel =>
      simp only [setUpLabelCompletion]
      cases hs : c.stats with
      | none => exact .same
      | some vc =>
        cases hi : getInfoForRID db o.ref with
        | none => exact .same
        | some info => exact .labelled hd hb hi
  · exact .same

/-- The appearance of the stats controller attaches it to the current room. -/
theorem stats_appearance (env : Env δ) : StatsStep env c .appear c.stats c.appear.stats := by
  rcases c.appear_cases with ⟨-, heq⟩ | ⟨t, rest, obs, ht, -, heq⟩
  · rw [heq]
    exact .same
  · rw [heq]
    unfold viewWillAppear
    split
    · unfold lobbySetUpListener
      split <;> exact .same
    · rename_i ha
      unfold statsSetUpListener
      split
      · rename_i rid hrid
        simp only
        cases hs : c.stats with
        | none => exact .same
        | some vc => exact .observed rfl ht ha hrid
      · exact .same
    · exact .same

/-- **A step of the stats controller's life.** -/
theorem stats_step (h : c.Nav) (env : Env δ) (e : ClientEvent) :
    StatsStep env c e c.stats (c.step env e).client.stats := by
  have hsame : ∀ {c' : Client}, c'.stats = c.stats → StatsStep env c e c.stats c'.stats := by
    intro c' hs
    rw [hs]
    exact .same
  cases e with
  | relaunch => exact .relaunched rfl
  | snapshot k i overlaid => exact stats_snapshot h env k i overlaid
  | updateTimer =>
    simp only [step, updateTimer]
    cases hs : c.stats with
    | none => simp only [hs]; exact .same
    | some vc =>
      simp only
      split
      · rename_i ht
        rw [stats_performToResults]
        exact .ticked rfl ht.1 ht.2
      · rw [hs]; exact .same
  | appear => exact stats_appearance env
  | didEnterBackground =>
    simp only [step, didEnterBackground, appBackgrounded]
    split
    · rename_i hdel
      split
      · cases hs : c.stats with
        | none => exact .same
        | some vc => exact .backgrounded rfl hdel
      · exact .same
    · exact .same
  | willEnterForeground => exact hsame rfl
  | lockcomplete =>
    simp only [step, lockcomplete, deviceLocked]
    split
    · rename_i hdel
      cases hs : c.stats with
      | none => exact .same
      | some vc => exact .locked rfl hdel
    · exact .same
  | ack =>
    simp only [step]
    rcases ack_cases c with ⟨-, hack⟩ | ⟨w, answer, rest, -, -, hack⟩ |
      ⟨w, n, rest, bet, -, -, -, hack⟩
    · exact hsame (by rw [hack])
    · exact hsame (by rw [hack]; rfl)
    · refine hsame ?_
      rw [hack]
      unfold presentLobby present
      split <;> rfl
  | showSetup =>
    refine hsame ?_
    simp only [step, showSetup, present]
    split
    · split <;> rfl
    · rfl
  | createTUI timeLimit =>
    refine hsame ?_
    simp only [step, createTUI]
    split
    · rename_i c' hc'
      split at hc'
      · cases hc'; rfl
      · cases hc'
    · rfl
  | backTUI => refine hsame ?_; simp only [step, backTUI]; split <;> rfl
  | editBetAmount value => refine hsame ?_; simp only [step, editBetAmount]; split <;> rfl
  | scanQRCode text => refine hsame ?_; simp only [step, scanQRCode]; split <;> rfl
  | dismiss => refine hsame ?_; simp only [step, dismiss]; split <;> rfl
  | startRoomTUI => refine hsame ?_; simp only [step, startRoomTUI]; split <;> rfl
  | deliverWrite accepted =>
    refine hsame ?_
    simp only [step, deliverWrite]
    split
    · split <;> rfl
    · rfl
  | check k =>
    refine hsame ?_
    simp only [step, check]
    split
    · split
      · rfl
      · split <;> rfl
    · rfl
  | runBlock k currentData => exact .same
  | compare k =>
    refine hsame ?_
    simp only [step, compare]
    split
    · split <;> rfl
    · rfl
  | completion k error =>
    refine hsame ?_
    simp only [step, transactionCompletion]
    split
    · split <;> rfl
    · rfl

/-! ## The listener -/

/-- How often the stats controller still has to appear. -/
def owes (c : Client) : ℕ := c.transitions.countP fun t => decide (t.appears = some .stats)

theorem transitions_present (sender : Option Screen) (new : Screen)
    {viewDidLoad : Client → Client} (h : ∀ c, (viewDidLoad c).transitions = c.transitions) :
    (c.present sender new viewDidLoad).transitions =
      if c.screens.head? = sender then c.transitions ++ [⟨sender, some new⟩]
      else c.transitions := by
  unfold present
  split
  · exact h _
  · rfl

theorem owes_present (sender : Option Screen) {new : Screen} (hnew : new ≠ .stats)
    {viewDidLoad : Client → Client} (h : ∀ c, (viewDidLoad c).transitions = c.transitions) :
    (c.present sender new viewDidLoad).owes = c.owes := by
  unfold owes
  rw [transitions_present sender new h]
  split
  · simp [hnew]
  · rfl

theorem transitions_setUpLabel : c.setUpLabel.transitions = c.transitions :=
  setUpLabel_keeps Client.transitions fun _ _ => rfl

theorem transitions_viewWillAppear (s : Option Screen) :
    (c.viewWillAppear s).transitions = c.transitions :=
  viewWillAppear_keeps Client.transitions (fun _ _ _ _ => rfl) s

theorem transitions_appear {t : Transition} {rest : List Transition}
    (h : c.transitions = t :: rest) : c.appear.transitions = rest := by
  rcases c.appear_cases with ⟨hn, -⟩ | ⟨t', rest', obs, ht, -, heq⟩
  · rw [hn] at h
    cases h
  · rw [h] at ht
    cases ht
    rw [heq, transitions_viewWillAppear]

/-- Nothing is owed before the stats controller is loaded. -/
theorem Nav.owes_eq_zero (h : c.Nav) (hs : c.stats = none) : c.owes = 0 := by
  refine List.countP_eq_zero.mpr fun t ht => ?_
  simpa using (h.idle (by rw [hs]; rfl)).2.2.2.2 t ht

theorem transitions_performRoomStats (id : ℕ) :
    (c.performRoomStats id).transitions =
      if c.screens.head? = some (.lobby id) then
        c.transitions ++ [⟨some (.lobby id), some .stats⟩]
      else c.transitions :=
  transitions_present _ _ fun _ => transitions_setUpLabel

theorem owes_performToResults (vc : RoomStatsViewController) :
    (c.performToResults vc).owes = c.owes :=
  owes_present _ (by simp) fun _ => rfl

theorem owes_presentLobby (sender : Option Screen) (bet : Option ℚ) :
    (c.presentLobby sender bet).owes = c.owes :=
  owes_present _ (by simp) fun _ => rfl

theorem owes_performRoomStats (h : c.Nav) (id : ℕ) :
    (c.performRoomStats id).owes ≤ c.owes ∨
      c.stats = none ∧ (c.performRoomStats id).owes ≤ 1 := by
  unfold owes
  rw [transitions_performRoomStats]
  split
  · rename_i hfront
    have hnone := h.stats_of_lobby hfront
    have h0 : c.transitions.countP (fun t => decide (t.appears = some .stats)) = 0 :=
      h.owes_eq_zero hnone
    exact .inr ⟨hnone, by simp [h0]⟩
  · exact .inl le_rfl

/-- A step lets the stats controller appear once more only by loading it. -/
theorem owes_step (h : c.Nav) (env : Env δ) (e : ClientEvent) :
    (c.step env e).client.owes ≤ c.owes ∨ c.stats = none ∧ (c.step env e).client.owes ≤ 1 := by
  have hsame : ∀ {c' : Client}, c'.transitions = c.transitions → c'.owes ≤ c.owes := by
    intro c' hc
    unfold owes
    rw [hc]
  by_cases hq : quiet e = true
  · exact .inl (hsame (congrArg Face.transitions (face_step env hq)))
  cases e with
  | relaunch => exact .inl (Nat.zero_le _)
  | showSetup =>
    left
    simp only [step, showSetup]
    split
    · have hnew : Screen.setup c.nextSetup ≠ .stats := by simp
      exact (owes_present (c := c) none hnew fun _ => rfl).le
    · exact le_rfl
  | backTUI => left; refine hsame ?_; simp only [step, backTUI]; split <;> rfl
  | dismiss =>
    left
    simp only [step, dismiss]
    split
    · rename_i id rest hs
      have hb : Base rest := (hs ▸ h.shape : Shape (.lobby id :: rest)).of_lobby
      have hne : rest.head? ≠ some .stats := fun he => hb.no_stats (List.mem_of_mem_head? he)
      simp [owes, hne]
    · exact le_rfl
  | ack =>
    left
    simp only [step]
    rcases ack_cases c with ⟨-, hack⟩ | ⟨w, answer, rest, -, -, hack⟩ |
      ⟨w, n, rest, bet, -, -, -, hack⟩
    · rw [hack]
    · rw [hack]; exact hsame rfl
    · rw [hack, owes_presentLobby]
      exact le_rfl
  | appear =>
    left
    simp only [step]
    cases ht : c.transitions with
    | nil =>
      refine hsame ?_
      simp [appear, ht]
    | cons t rest =>
      unfold owes
      rw [transitions_appear ht, ht, List.countP_cons]
      exact Nat.le_add_right _ _
  | updateTimer =>
    left
    simp only [step, updateTimer]
    split
    · split
      · exact (owes_performToResults _).le
      · exact le_rfl
    · exact le_rfl
  | snapshot k i overlaid =>
    simp only [step, snapshot]
    split
    · rename_i o db _ _
      obtain ⟨obs, hobs, heq⟩ := c.deliver_eq k o db
      have hn : Nav { c with observers := obs } := h.observers hobs
      simp only [heq]
      cases o.block with
      | lobby id =>
        simp only [observeEventBlock]
        split
        · refine owes_performRoomStats (c := { c with observers := obs, lobbies := _ }) ?_ id
          exact ⟨hn.shape, by simpa using hn.lobby_lt, by simpa using hn.observer_lt,
            by simpa using hn.appears_lt, hn.stats_iff, hn.idle⟩
        · exact .inl le_rfl
      | stats =>
        left
        simp only [listener]
        split
        · split
          · exact (owes_performToResults _).le
          · exact le_rfl
        · exact le_rfl
      | setUpLabel =>
        left
        simp only [setUpLabelCompletion]
        split <;> exact le_rfl
    · exact .inl le_rfl
  | _ => exact absurd rfl hq

theorem observers_performToResults (vc : RoomStatsViewController) :
    (c.performToResults vc).observers = c.observers :=
  present_keeps Client.observers (fun _ _ _ => rfl) _ _ fun _ => rfl

theorem observers_presentLobby (sender : Option Screen) (bet : Option ℚ) :
    (c.presentLobby sender bet).observers = c.observers :=
  present_keeps Client.observers (fun _ _ _ => rfl) _ _ fun _ => rfl

theorem mem_observers_performRoomStats {id : ℕ} {o : Observer}
    (ho : o ∈ (c.performRoomStats id).observers) :
    o ∈ c.observers ∨ ∃ rid, c.screens.head? = some (.lobby id) ∧ c.currentRID = some rid ∧
      o = ⟨roomRef rid, .setUpLabel, true⟩ := by
  unfold performRoomStats present at ho
  simp only at ho
  split at ho
  · rename_i hfront
    unfold setUpLabel at ho
    split at ho
    · rename_i rid hrid
      rcases List.mem_append.mp ho with ho | ho
      · exact .inl ho
      · exact .inr ⟨rid, hfront, hrid, List.mem_singleton.mp ho⟩
    · exact .inl ho
  · exact .inl ho

/-- Where an observer comes from. -/
inductive ObserverStep (env : Env δ) (c : Client) (e : ClientEvent) (o : Observer) : Prop
  | kept : o ∈ c.observers → ObserverStep env c e o
  | lobby {id} : o.block = .lobby id → ObserverStep env c e o
  | stats {t rest rid} : e = .appear → c.transitions = t :: rest → t.appears = some .stats →
      c.currentRID = some rid → o.block = .stats → o.ref = roomUsersRef rid →
      ObserverStep env c e o
  | label {o' db id rid} : Delivers env c e o' db → o'.block = .lobby id →
      c.screens.head? = some (.lobby id) → c.currentRID = some rid →
      o = ⟨roomRef rid, .setUpLabel, true⟩ → ObserverStep env c e o

theorem observers_step (env : Env δ) {e : ClientEvent} {o : Observer}
    (ho : o ∈ (c.step env e).client.observers) : ObserverStep env c e o := by
  by_cases hq : quiet e = true
  · have hf : (c.step env e).client.observers = c.observers :=
      congrArg Face.observers (face_step env hq)
    exact .kept (hf ▸ ho)
  cases e with
  | relaunch => exact (List.not_mem_nil ho).elim
  | showSetup =>
    refine .kept ?_
    simp only [step, showSetup] at ho
    split at ho
    · rwa [show (c.present none (.setup c.nextSetup) id).observers = c.observers from
        present_keeps Client.observers (fun _ _ _ => rfl) none _ fun _ => rfl] at ho
    · exact ho
  | backTUI => refine .kept ?_; simp only [step, backTUI] at ho; split at ho <;> exact ho
  | dismiss => refine .kept ?_; simp only [step, dismiss] at ho; split at ho <;> exact ho
  | ack =>
    refine .kept ?_
    simp only [step] at ho
    rcases ack_cases c with ⟨-, hack⟩ | ⟨w, answer, rest, -, -, hack⟩ |
      ⟨w, n, rest, bet, -, -, -, hack⟩
    · rwa [hack] at ho
    · rwa [hack] at ho
    · rwa [hack, observers_presentLobby] at ho
  | updateTimer =>
    refine .kept ?_
    simp only [step, updateTimer] at ho
    split at ho
    · split at ho
      · rwa [observers_performToResults] at ho
      · exact ho
    · exact ho
  | appear =>
    simp only [step] at ho
    rcases c.appear_cases with ⟨-, heq⟩ | ⟨t, rest, obs, ht, hobs, heq⟩
    · rw [heq] at ho
      exact .kept ho
    · rw [heq] at ho
      unfold viewWillAppear at ho
      split at ho
      · unfold lobbySetUpListener at ho
        split at ho
        · rcases List.mem_append.mp ho with ho | ho
          · exact .kept (hobs o ho)
          · rcases List.mem_cons.mp ho with rfl | ho
            · exact .lobby rfl
            · rw [List.mem_singleton.mp ho]
              exact .lobby rfl
        · exact .kept (hobs o ho)
      · rename_i ha
        unfold statsSetUpListener at ho
        split at ho
        · rename_i rid hrid
          rcases List.mem_append.mp ho with ho | ho
          · exact .kept (hobs o ho)
          · rw [List.mem_singleton.mp ho]
            exact .stats rfl ht ha hrid rfl rfl
        · exact .kept (hobs o ho)
      · exact .kept (hobs o ho)
  | snapshot k i overlaid =>
    simp only [step, snapshot] at ho
    split at ho
    · rename_i o' db hk hv
      obtain ⟨obs, hobs, heq⟩ := c.deliver_eq k o' db
      simp only [heq] at ho
      split at ho
      · rename_i id hb
        simp only [observeEventBlock] at ho
        split at ho
        · rcases mem_observers_performRoomStats ho with ho | ⟨rid, hfront, hrid, ho⟩
          · exact .kept (hobs o ho)
          · exact .label ⟨k, i, overlaid, rfl, hk, hv⟩ hb hfront hrid ho
        · exact .kept (hobs o ho)
      · simp only [listener] at ho
        split at ho
        · split at ho
          · rw [observers_performToResults] at ho
            exact .kept (hobs o ho)
          · exact .kept (hobs o ho)
        · exact .kept (hobs o ho)
      · simp only [setUpLabelCompletion] at ho
        split at ho <;> exact .kept (hobs o ho)
    · exact .kept ho
  | _ => exact absurd rfl hq

/-- A step attaches the listener where the stats controller appears. -/
theorem listener_step (env : Env δ) {e : ClientEvent} {o : Observer}
    (ho : o ∈ (c.step env e).client.observers) (hb : o.block = .stats) :
    o ∈ c.observers ∨ ∃ t rest rid, e = .appear ∧ c.transitions = t :: rest ∧
      t.appears = some .stats ∧ c.currentRID = some rid ∧ o.ref = roomUsersRef rid := by
  cases observers_step env ho with
  | kept ho => exact .inl ho
  | lobby hl => rw [hl] at hb; cases hb
  | stats he ht ha hrid _ href => exact .inr ⟨_, _, _, he, ht, ha, hrid, href⟩
  | label _ _ _ _ ho => rw [ho] at hb; cases hb

/-- The stats controller appears once, and its listener is where it appeared. -/
structure Attached (c : Client) : Prop where
  owes_le : c.owes ≤ 1
  unobserved : 0 < c.owes → ∀ vc, c.stats = some vc → vc.observedRID = none
  listener : ∀ o ∈ c.observers, o.block = .stats →
    ∃ vc rid, c.stats = some vc ∧ vc.observedRID = some rid ∧ o.ref = roomUsersRef rid

theorem attached_launch : Attached launch where
  owes_le := Nat.zero_le _
  unobserved h := absurd h (lt_irrefl 0)
  listener _ h := (List.not_mem_nil h).elim

/-- Where a transition to the stats controller comes next, it is the last one. -/
theorem Attached.last_owed (h : c.Attached) {t : Transition} {rest : List Transition}
    (ht : c.transitions = t :: rest) (ha : t.appears = some .stats) :
    0 < c.owes ∧ c.appear.owes = 0 := by
  have h1 := h.owes_le
  have hc : c.owes = rest.countP (fun t => decide (t.appears = some .stats)) + 1 := by
    unfold owes
    rw [ht, List.countP_cons]
    simp [ha]
  refine ⟨by omega, ?_⟩
  unfold owes
  rw [transitions_appear ht]
  omega

/-- The appearance attaches the listener to the current room. -/
theorem stats_appear {t : Transition} {rest : List Transition} {vc : RoomStatsViewController}
    {rid : String} (ht : c.transitions = t :: rest) (ha : t.appears = some .stats)
    (hrid : c.currentRID = some rid) (hvc : c.stats = some vc) :
    c.appear.stats = some { vc with observedRID := some rid } := by
  rcases c.appear_cases with ⟨hn, -⟩ | ⟨t', rest', obs, ht', -, heq⟩
  · rw [hn] at ht
    cases ht
  · rw [ht] at ht'
    cases ht'
    rw [heq, ha]
    simp only [viewWillAppear, statsSetUpListener, hrid, hvc, Option.map_some]

/-- The observed room of a stats controller does not change. -/
theorem Attached.observed_step (hnav : c.Nav) (h : c.Attached) (env : Env δ) {e : ClientEvent}
    (hl : e ≠ .relaunch) {vc : RoomStatsViewController} {rid : String} (hvc : c.stats = some vc)
    (hr : vc.observedRID = some rid) :
    ∃ vc', (c.step env e).client.stats = some vc' ∧ vc'.observedRID = some rid := by
  have hs := stats_step hnav env e
  rw [hvc] at hs
  generalize (c.step env e).client.stats = s' at hs
  cases hs with
  | same => exact ⟨vc, rfl, hr⟩
  | relaunched he => exact absurd he hl
  | observed he ht ha =>
    rw [h.unobserved (h.last_owed ht ha).1 vc hvc] at hr
    cases hr
  | lost => exact ⟨_, rfl, hr⟩
  | labelled => exact ⟨_, rfl, hr⟩
  | ticked => exact ⟨_, rfl, hr⟩
  | backgrounded => exact ⟨_, rfl, hr⟩
  | locked => exact ⟨_, rfl, hr⟩

theorem Attached.step (hnav : c.Nav) (h : c.Attached) (env : Env δ) (e : ClientEvent) :
    (c.step env e).client.Attached := by
  by_cases hl : e = .relaunch
  · subst hl
    exact attached_launch
  refine ⟨?_, fun howes vc hvc => ?_, fun o ho hb => ?_⟩
  · rcases owes_step hnav env e with hle | ⟨-, hle⟩
    · exact hle.trans h.owes_le
    · exact hle
  · cases hr : vc.observedRID with
    | none => rfl
    | some rid =>
      have hs := stats_step hnav env e
      have hold : ∀ v, c.stats = some v → v.observedRID = none := by
        intro v hv
        rcases owes_step hnav env e with hle | ⟨hn, -⟩
        · exact h.unobserved (by omega) v hv
        · rw [hn] at hv; cases hv
      rw [hvc] at hs
      generalize hc : c.stats = s at hs hold
      cases hs with
      | loaded => cases hr
      | observed he ht ha =>
        -- this was the one appearance owed
        subst he
        have h0 : (c.step env .appear).client.owes = 0 := (h.last_owed ht ha).2
        rw [h0] at howes
        exact absurd howes (lt_irrefl 0)
      | same => rw [hold _ rfl] at hr; cases hr
      | lost => rw [hold _ rfl] at hr; cases hr
      | labelled => rw [hold _ rfl] at hr; cases hr
      | ticked => rw [hold _ rfl] at hr; cases hr
      | backgrounded => rw [hold _ rfl] at hr; cases hr
      | locked => rw [hold _ rfl] at hr; cases hr
  · rcases listener_step env ho hb with ho' | ⟨t, rest, rid, rfl, ht, ha, hrid, href⟩
    · obtain ⟨v, r, hv, hr, href⟩ := h.listener o ho' hb
      obtain ⟨v', hv', hr'⟩ := h.observed_step hnav env hl hv hr
      exact ⟨v', r, hv', hr', href⟩
    · have hloaded : c.stats.isSome = true := by
        cases hs : c.stats.isSome with
        | true => rfl
        | false =>
          exact absurd ha ((hnav.idle hs).2.2.2.2 t (by rw [ht]; exact List.mem_cons_self))
      obtain ⟨v, hv⟩ := Option.isSome_iff_exists.mp hloaded
      exact ⟨_, rid, stats_appear ht ha hrid hv, rfl, href⟩

end
end Client

end Unplug.App
