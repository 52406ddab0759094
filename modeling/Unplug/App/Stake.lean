import Unplug.App.Agreement
import Unplug.App.Deadline
import Unplug.App.GameEnd
import Unplug.App.LobbyList

/-! # The stake shown

The stake reaches a stats controller in two ways: through the segues from the bet field,
for the creator of the room alone, and by the read of `setUpLabel`. What it shows before
the read is what the segues handed over, what it shows after is the room's own stake. -/
namespace Unplug.App
open Unplug.Store Unplug.Firebase Unplug.Machine Unplug.Room RealtimeDatabase

/-- The stake that a call shows. -/
def Call.bet : Call → Option (Option ℚ)
  | .performToResults _ betAmount => some betAmount
  | .setStatLabel betAmount => some betAmount
  | .postYouLost betAmount => some betAmount
  | _ => none

namespace Client
section
variable {δ : Type*} [RealtimeDatabase δ]

/-! ## The stake in a step -/

/-- The stake that the step brings the completion of `setUpLabel`. -/
def readsBet (env : Env δ) (c : Client) : ClientEvent → Option (Option ℚ)
  | .snapshot k i overlaid => match c.observers[k]?, c.view env i overlaid with
    | some o, some db =>
      if o.block = .setUpLabel then (getInfoForRID db o.ref).map (·.1) else none
    | _, _ => none
  | _ => none

/-- The step opens the results, or ends a mark transaction. -/
def showsBet (env : Env δ) (c : Client) : ClientEvent → Bool
  | .snapshot k i overlaid => match c.observers[k]?, c.view env i overlaid with
    | some o, some db => o.block = .stats ∧ loserName db o.ref ≠ ""
    | _, _ => false
  | .updateTimer => match c.stats with
    | some vc => vc.timer = .scheduled ∧ vc.timeLeft env.now < 1
    | none => false
  | .completion k error => match c.transactions[k]? with
    | some t => t.committed || error
    | none => false
  | _ => false

variable {c : Client}

/-- A step shows what it reads, or what the controller holds. -/
theorem bets_issued (env : Env δ) (e : ClientEvent) {vc : RoomStatsViewController}
    (hs : c.stats = some vc) :
    (c.issued env e).filterMap Call.bet = match c.readsBet env e with
      | some bet => [bet]
      | none => if c.showsBet env e then [vc.betAmount] else [] := by
  cases e with
  | snapshot k i overlaid =>
    rcases Option.eq_none_or_eq_some (c.observers[k]?) with ho | ⟨o, ho⟩
    · simp [issued, readsBet, showsBet, ho]
    rcases Option.eq_none_or_eq_some (c.view env i overlaid) with hdb | ⟨db, hdb⟩
    · simp [issued, readsBet, showsBet, ho, hdb]
    simp only [issued, readsBet, showsBet, ho, hdb, issuedByDeliver, hs]
    cases hb : o.block with
    | lobby id =>
      simp only [reduceCtorEq, false_and, if_false, decide_false, Bool.false_eq_true]
      split <;> rfl
    | stats =>
      simp only [reduceCtorEq, if_false, true_and, decide_eq_true_eq]
      split <;> rfl
    | setUpLabel =>
      cases getInfoForRID db o.ref with
      | none => simp
      | some info => simp [Call.bet]
  | updateTimer =>
    simp only [issued, readsBet, showsBet, hs, decide_eq_true_eq]
    split <;> rfl
  | check k =>
    simp only [issued, readsBet, showsBet, Bool.false_eq_true, if_false]
    split
    · split
      · rfl
      · split <;> rfl
    · rfl
  | didEnterBackground =>
    simp only [issued, readsBet, showsBet, Bool.false_eq_true, if_false]
    split <;> rfl
  | completion k error =>
    rcases Option.eq_none_or_eq_some (c.transactions[k]?) with ht | ⟨t, ht⟩
    · simp [issued, readsBet, showsBet, ht]
    · simp only [issued, readsBet, showsBet, ht, hs]
      split <;> rfl
  | _ => rfl

/-- Without a stats controller no stake is shown. -/
theorem Nav.bets_issued (h : c.Nav) (env : Env δ) (e : ClientEvent) (hs : c.stats = none) :
    (c.issued env e).filterMap Call.bet = [] := by
  obtain ⟨hchecks, htransactions, -, hobs, -⟩ := h.idle (by rw [hs]; rfl)
  cases e with
  | snapshot k i overlaid =>
    simp only [issued]
    split
    · rename_i o db ho _
      obtain ⟨id, hb⟩ := hobs o (List.mem_of_getElem? ho)
      simp only [issuedByDeliver, hb]
      split <;> rfl
    · rfl
  | updateTimer => simp [issued, hs]
  | check k => simp [issued, hchecks]
  | didEnterBackground =>
    simp only [issued]
    split <;> rfl
  | completion k error => simp [issued, htransactions]
  | _ => rfl

/-- The read sets the label with what it brings. -/
theorem stats_of_readsBet (env : Env δ) {e : ClientEvent} {vc : RoomStatsViewController}
    (hs : c.stats = some vc) {bet : Option ℚ} (hr : c.readsBet env e = some bet) :
    ∃ vc', (c.step env e).client.stats = some vc' ∧ vc'.labelled ∧ vc'.betAmount = bet := by
  cases e with
  | snapshot k i overlaid =>
    rcases Option.eq_none_or_eq_some (c.observers[k]?) with ho | ⟨o, ho⟩
    · simp [readsBet, ho] at hr
    rcases Option.eq_none_or_eq_some (c.view env i overlaid) with hdb | ⟨db, hdb⟩
    · simp [readsBet, ho, hdb] at hr
    simp only [readsBet, ho, hdb] at hr
    simp only [step, snapshot, ho, hdb]
    split at hr
    · rename_i hb
      obtain ⟨info, hinfo, rfl⟩ := Option.map_eq_some_iff.mp hr
      obtain ⟨obs, -, heq⟩ := c.deliver_eq k o db
      simp only [heq, hb, setUpLabelCompletion, hs, hinfo]
      exact ⟨_, rfl, by simp [RoomStatsViewController.labelled], rfl⟩
    · cases hr
  | _ => cases hr

/-- No other step of a running process changes the stake that the controller holds. -/
theorem bet_step (h : c.Nav) (env : Env δ) {e : ClientEvent} (hl : e ≠ .relaunch)
    {vc : RoomStatsViewController} (hs : c.stats = some vc) (hr : c.readsBet env e = none) :
    ∃ vc', (c.step env e).client.stats = some vc' ∧ vc'.betAmount = vc.betAmount ∧
      (vc'.labelled ↔ vc.labelled) := by
  have hstep := stats_step h env e
  rw [hs] at hstep
  generalize (c.step env e).client.stats = stats at hstep
  cases hstep with
  | same => exact ⟨vc, rfl, rfl, Iff.rfl⟩
  | relaunched he => exact absurd he hl
  | observed => exact ⟨_, rfl, rfl, Iff.rfl⟩
  | lost => exact ⟨_, rfl, rfl, Iff.rfl⟩
  | labelled hd hb hi =>
    obtain ⟨k, i, overlaid, rfl, ho, hdb⟩ := hd
    simp [readsBet, ho, hdb, hb, hi] at hr
  | ticked _ ht => exact ⟨_, rfl, rfl, by simp [RoomStatsViewController.labelled, ht]⟩
  | backgrounded => exact ⟨_, rfl, rfl, Iff.rfl⟩
  | locked => exact ⟨_, rfl, rfl, Iff.rfl⟩

/-! ## What the segues hand over -/

/-- The room, and the stake, that the next answer opens a lobby with. -/
def enters (c : Client) : Option (String × Option ℚ) :=
  match c.acks with
  | (w, some _) :: _ =>
    if c.screens.head? = w.sender then match w.op with
      | .createAndJoinRoom rid _ _ => some (rid, c.betAmountField)
      | .joinRoomWithRID rid _ => some (rid, none)
      | _ => none
    else none
  | _ => none

theorem lobby_of_enters {rid : String} {bet : Option ℚ} (h : c.enters = some (rid, bet)) :
    c.ack.lobbies[c.lobbies.length]? = some (.viewDidLoad (some rid) bet) := by
  unfold enters at h
  split at h
  · rename_i w n rest hacks
    split at h
    · rename_i hfront
      obtain ⟨op, sender⟩ := w
      cases op with
      | createAndJoinRoom rid' room user =>
        cases h
        simp only [ack, hacks, presentLobby, present]
        rw [if_pos hfront]
        simp
      | joinRoomWithRID rid' user =>
        cases h
        simp only [ack, hacks, presentLobby, present]
        rw [if_pos hfront]
        simp
      | startRoom => cases h
      | mark => cases h
    · cases h
  · cases h

/-- A new stats controller has the stake of the lobby it is opened from. -/
theorem loaded_bet (h : c.Nav) (env : Env δ) {e : ClientEvent} (hs : c.stats = none)
    {vc : RoomStatsViewController} (hs' : (c.step env e).client.stats = some vc) :
    ∃ id, c.screens.head? = some (.lobby id) ∧
      vc = .new ((c.lobbies[id]?).bind (·.betAmount)) := by
  have hstep := stats_step h env e
  rw [hs, hs'] at hstep
  cases hstep with
  | @loaded o db id bet hd hb hst hfront =>
    refine ⟨id, hfront, ?_⟩
    obtain ⟨k, i, overlaid, rfl, ho, hdb⟩ := hd
    obtain ⟨obs, -, heq⟩ := c.deliver_eq k o db
    simp only [step, snapshot, ho, hdb, heq, hb, observeEventBlock, hst, if_true] at hs'
    rw [stats_performRoomStats, if_pos hfront] at hs'
    rw [← Option.some.inj hs', List.getElem?_modify_eq]
    cases c.lobbies[id]? <;> rfl

end
end Client

/-- A process that goes on keeps each lobby's stake. -/
theorem lobby_bet_run {ι δ : Type*} [DecidableEq ι] [RealtimeDatabase δ] (D : Deployment ι)
    {pre mid : List (Event ι)} {x : ι} (hstay : .client x .relaunch ∉ mid) {id : ℕ}
    {vc : QRCodeGeneratorViewController}
    (hvc : ((D.run pre : System ι δ).clients x).lobbies[id]? = some vc) :
    ∃ vc', ((D.run (pre ++ mid) : System ι δ).clients x).lobbies[id]? = some vc' ∧
      vc'.betAmount = vc.betAmount := by
  induction mid using List.reverseRecOn with
  | nil => exact ⟨vc, by simpa using hvc, rfl⟩
  | append_singleton mid e ih =>
    obtain ⟨vc', hvc', hbet⟩ := ih fun h => hstay (List.mem_append_left _ h)
    rw [← List.append_assoc, run_concat]
    rcases clients_step D (D.run (pre ++ mid) : System ι δ) e x with ⟨-, hsame⟩ | ⟨e', rfl, hown⟩
    · rw [hsame]
      exact ⟨vc', hvc', hbet⟩
    · rw [hown]
      have hl : e' ≠ .relaunch := by
        rintro rfl
        exact hstay (by simp)
      obtain ⟨vc'', hvc'', hstep⟩ :=
        lobby_step ((D.run (pre ++ mid) : System ι δ).env D x) _ hl hvc'
      refine ⟨vc'', hvc'', ?_⟩
      cases hstep with
      | same => exact hbet
      | observed => exact hbet
      | told => exact hbet

/-! ## What the read brings -/

section
variable {ι δ : Type*} [DecidableEq ι] [RealtimeDatabase δ] {D : Deployment ι}
  {evs : List (Event ι)} {x : ι} {rid : String} {room : Room}

/-- In the run the server takes the creation of the room `rid`. -/
def Creates (δ : Type*) [RealtimeDatabase δ] (D : Deployment ι) (evs : List (Event ι))
    (rid : String) (room : Room) : Prop :=
  ∃ pre e user, pre ++ [e] <+: evs ∧
    (D.run pre : System ι δ).applied D e = some (.createAndJoinRoom rid room user)

theorem mem_history_of_run {pre : List (Event ι)} (h : pre <+: evs) {d : δ}
    (hd : d ∈ (D.run pre : System ι δ).history) : d ∈ (D.run evs : System ι δ).history := by
  obtain ⟨post, rfl⟩ := h
  induction post using List.reverseRecOn with
  | nil => simpa using hd
  | append_singleton post e ih =>
    rw [← List.append_assoc, run_concat]
    exact mem_history_step D e ih

theorem Creates.key (hscans : D.Along (δ := δ) ScansRooms evs) (h : Creates δ D evs rid room) :
    IsKey rid := by
  obtain ⟨pre, e, user, ⟨post, rfl⟩, hop⟩ := h
  have hfresh := run_fresh D (Along.append.mp (Along.append.mp hscans).1).1
  cases e with
  | clock t => cases hop
  | client y e => exact (hfresh.applied hop).1

/-- Every state that has the room has the stake it was created with. -/
theorem run_stake (hscans : D.Along (δ := δ) ScansRooms evs) (h : Creates δ D evs rid room)
    {d : δ} (hd : d ∈ (D.run evs : System ι δ).history) (hdata : HasData d ["rooms", rid]) :
    leafAt d ["rooms", rid, "betAmount"] = some (.num room.betAmount) := by
  have hk := h.key hscans
  have hbet : Fixed "betAmount" := by decide
  obtain ⟨pre, e, user, hpre, hop⟩ := h
  have hnew : createAndJoinRoom (D.run pre : System ι δ).db rid room user ∈
      (D.run evs : System ι δ).history := by
    refine mem_history_of_run hpre ?_
    rw [run_concat, (db_step_some D hop).2]
    simp
  have hleaf : leafAt (createAndJoinRoom (D.run pre : System ι δ).db rid room user)
      ["rooms", rid, "betAmount"] = some (.num room.betAmount) := by
    rw [leafAt_create_field _ hk, if_pos rfl]
    simp [roomValue, Room.toDict]
  rw [← run_fixed D hscans hd hdata hbet, ← hleaf]
  exact run_fixed D hscans hnew ⟨["betAmount"], _, hleaf⟩ hbet

/-- What a client knows of the room it reads the label from. -/
structure Reading (rid : String) (c : Client) : Prop where
  labels : ∀ o ∈ c.observers, o.block = .setUpLabel → o.ref = roomRef rid
  pending : ∀ op ∈ c.pending, AfterCreate rid op

/-- **The read brings the stake of the room.** -/
theorem readsBet_eq (hscans : D.Along (δ := δ) ScansRooms evs) (hcreate : Creates δ D evs rid room)
    {pre : List (Event ι)} (hpre : pre <+: evs) {e : ClientEvent}
    (hord : InOrder (D.run pre : System ι δ) (.client x e))
    (hreading : Reading rid ((D.run pre : System ι δ).clients x)) {bet : Option ℚ}
    (hr : ((D.run pre : System ι δ).clients x).readsBet ((D.run pre : System ι δ).env D x) e =
      some bet) : bet = some room.betAmount := by
  have hscans' : D.Along (δ := δ) ScansRooms pre := by
    obtain ⟨post, rfl⟩ := hpre
    exact (Along.append.mp hscans).1
  have hk := hcreate.key hscans
  have hfresh := run_fresh D hscans'
  cases e with
  | snapshot k i overlaid =>
    simp only [Client.readsBet] at hr
    split at hr
    · rename_i o db ho hdb
      split at hr
      · rename_i hb
        obtain ⟨info, hinfo, rfl⟩ := Option.map_eq_some_iff.mp hr
        have href := hreading.labels o (List.mem_of_getElem? ho) hb
        obtain ⟨r, hat, hkey, hsince⟩ := (hfresh.entered x).observers o (List.mem_of_getElem? ho)
        obtain rfl : r = rid := by
          rw [Observer.At, hb, href, roomRef_key hk, roomRef_key hkey] at hat
          simpa using hat.symm
        obtain ⟨d, hd, hleaf⟩ := view_fixed hfresh hreading.pending hdb
          (show Fixed "betAmount" by decide)
        have hdata : HasData d ["rooms", r] := hsince.2 i d (hord _ rfl) hd
        have hstake := run_stake hscans hcreate
          (mem_history_of_run hpre (List.mem_of_getElem? hd)) hdata
        rw [href, roomRef_key hk, getInfoForRID] at hinfo
        split at hinfo
        · cases hinfo
          exact numAt_eq_some.mpr (hleaf.trans hstake)
        · cases hinfo
      · cases hr
    · cases hr
  | _ => cases hr

/-- Only the load of the stats controller attaches a read, and no write that is sent
creates a room that is there. -/
theorem Reading.step {s : System ι δ} (hnav : (s.clients x).Nav) (hfresh : Fresh D s)
    {e : ClientEvent} (hscan : ScansRooms s (.client x e)) (hdata : HasData s.db ["rooms", rid])
    (hcur : (s.clients x).stats = none → (s.clients x).currentRID = some rid)
    (h : Reading rid (s.clients x)) :
    Reading rid ((s.step D (.client x e)).clients x) := by
  refine ⟨?_, ?_⟩
  · intro o ho hb
    rw [step_client_self] at ho
    cases Client.observers_step _ ho with
    | kept ho => exact h.labels o ho hb
    | lobby hl => rw [hl] at hb; cases hb
    | stats _ _ _ _ hst => rw [hst] at hb; cases hb
    | label _ _ hfront hrid ho =>
      rw [hcur (hnav.stats_of_lobby hfront)] at hrid
      cases hrid
      rw [ho]
  · intro op hop
    refine ⟨?_, ?_⟩
    · obtain ⟨w, hw, rfl⟩ := mem_pending ((hfresh.step hscan).writes x) hop
      exact hw.1
    · rw [step_client_self] at hop
      rcases Client.mem_pending_step _ hop with hop | ⟨w, hw, rfl⟩
      · exact (h.pending op hop).2
      · intro room user he
        cases hw with
        | create =>
          cases he
          exact hfresh.unused _ le_rfl hdata
        | join => cases he
        | start => cases he

/-- What holds of a client from the load of its stats controller on. -/
structure Staked (rid : String) (room : Room) (handed : Option ℚ) (x : ι) (s : System ι δ) :
    Prop where
  reading : Reading rid (s.clients x)
  data : HasData s.db ["rooms", rid]
  bet : ∃ vc, (s.clients x).stats = some vc ∧
    (vc.labelled → vc.betAmount = some room.betAmount) ∧ (¬ vc.labelled → vc.betAmount = handed)

theorem Staked.step (hscans : D.Along (δ := δ) ScansRooms evs)
    (horder : D.Along (δ := δ) (InOrderAt x) evs) (hcreate : Creates δ D evs rid room)
    {pre : List (Event ι)} {e : Event ι} (hpre : pre ++ [e] <+: evs)
    (hstay : e ≠ .client x .relaunch) {handed : Option ℚ}
    (h : Staked rid room handed x (D.run pre : System ι δ)) :
    Staked rid room handed x (D.run (pre ++ [e]) : System ι δ) := by
  obtain ⟨hnav, -⟩ := run_nav (δ := δ) D pre x
  have hpre' := (List.prefix_append pre [e]).trans hpre
  obtain ⟨post, rfl⟩ := hpre
  obtain ⟨hscans', hscan⟩ := Along.concat.mp (Along.append.mp hscans).1
  obtain ⟨-, hord⟩ := Along.concat.mp (Along.append.mp horder).1
  have hfresh := run_fresh D hscans'
  have hdata : HasData (D.run (pre ++ [e]) : System ι δ).db ["rooms", rid] := by
    rw [run_concat]
    cases e with
    | clock t => exact h.data
    | client y e => exact hfresh.hasData_step h.data
  obtain ⟨vc, hvc, hlab, hunlab⟩ := h.bet
  rw [run_concat] at hdata ⊢
  rcases clients_step D (D.run pre : System ι δ) e x with ⟨-, hsame⟩ | ⟨e', rfl, hown⟩
  · refine ⟨hsame.symm ▸ h.reading, hdata, vc, ?_, hlab, hunlab⟩
    rw [hsame, hvc]
  · have hl : e' ≠ .relaunch := by
      rintro rfl
      exact hstay rfl
    refine ⟨h.reading.step hnav hfresh hscan h.data ?_, hdata, ?_⟩
    · intro hs
      rw [hvc] at hs
      cases hs
    · rw [hown]
      cases hr : ((D.run pre : System ι δ).clients x).readsBet ((D.run pre : System ι δ).env D x)
          e' with
      | some bet =>
        obtain ⟨vc', hvc', hlab', hbet⟩ := Client.stats_of_readsBet _ hvc hr
        refine ⟨vc', hvc', fun _ => hbet.trans ?_, fun hn => absurd hlab' hn⟩
        exact readsBet_eq hscans hcreate hpre' hord.inOrder h.reading hr
      | none =>
        obtain ⟨vc', hvc', hbet, hiff⟩ := Client.bet_step hnav _ hl hvc hr
        refine ⟨vc', hvc', ?_, ?_⟩
        · intro hlab'
          rw [hbet]
          exact hlab (hiff.mp hlab')
        · intro hn
          rw [hbet]
          exact hunlab fun hlab' => hn (hiff.mpr hlab')

/-! ## A game -/

/-- An answer lets the process `x` into `room` and hands its lobby a stake; from that lobby
the step `e` opens the stats controller, while the global rid is the one of `current`; and
the process goes on. -/
structure Game (δ : Type*) [RealtimeDatabase δ] (D : Deployment ι) (x : ι)
    (opening : List (Event ι)) (e : ClientEvent) (post : List (Event ι)) (handed : Option ℚ)
    (room current : Room) : Prop where
  entered : ∃ pre mid rid, opening = pre ++ .client x .ack :: mid ∧ .client x .relaunch ∉ mid ∧
    ((D.run pre : System ι δ).clients x).enters = some (rid, handed) ∧
    Creates δ D (opening ++ [.client x e] ++ post) rid room ∧
    ((D.run opening : System ι δ).clients x).screens.head? =
      some (.lobby ((D.run pre : System ι δ).clients x).lobbies.length)
  current : ∃ rid, ((D.run opening : System ι δ).clients x).currentRID = some rid ∧
    Creates δ D (opening ++ [.client x e] ++ post) rid current
  unloaded : ((D.run opening : System ι δ).clients x).stats = none
  loads : ((D.run (opening ++ [.client x e]) : System ι δ).clients x).stats ≠ none
  stays : .client x .relaunch ∉ post

/-- The step shows the stake of a controller that has not read its label. -/
def ShowsEarly (D : Deployment ι) (x : ι) (s : System ι δ) (e : Event ι) : Prop :=
  ∃ e' vc, e = .client x e' ∧ (s.clients x).stats = some vc ∧ ¬ vc.labelled ∧
    (s.clients x).showsBet (s.env D x) e' = true

instance (D : Deployment ι) (x : ι) (s : System ι δ) : DecidablePred (ShowsEarly D x s)
  | .client y e' => decidable_of_iff (y = x ∧ ∃ vc ∈ (s.clients x).stats, ¬ vc.labelled ∧
      (s.clients x).showsBet (s.env D x) e' = true) (by simp [ShowsEarly])
  | .clock _ => .isFalse (by simp [ShowsEarly])

/-- The step is the read of the label. -/
def ReadsLabel (D : Deployment ι) (x : ι) (s : System ι δ) (e : Event ι) : Prop :=
  ∃ e', e = .client x e' ∧ (s.clients x).readsBet (s.env D x) e' ≠ none

variable {opening post : List (Event ι)} {e : ClientEvent} {handed : Option ℚ} {current : Room}

theorem Game.lobby (h : Game δ D x opening e post handed room current) :
    ∃ id vc, ((D.run opening : System ι δ).clients x).screens.head? = some (.lobby id) ∧
      ((D.run opening : System ι δ).clients x).lobbies[id]? = some vc ∧
      vc.betAmount = handed := by
  obtain ⟨pre, mid, rid, rfl, hstay, henters, -, hfront⟩ := h.entered
  have hvc : ((D.run (pre ++ [.client x .ack]) : System ι δ).clients x).lobbies[
      ((D.run pre : System ι δ).clients x).lobbies.length]? =
      some (.viewDidLoad (some rid) handed) := by
    rw [run_concat, step_client_self]
    exact Client.lobby_of_enters henters
  obtain ⟨vc, hvc', hbet⟩ := lobby_bet_run D hstay hvc
  refine ⟨_, vc, hfront, ?_, hbet⟩
  rwa [List.append_assoc] at hvc'

/-- The stats controller is opened with what its lobby was handed. -/
theorem Game.loaded (h : Game δ D x opening e post handed room current) :
    ((D.run (opening ++ [.client x e]) : System ι δ).clients x).stats = some (.new handed) := by
  obtain ⟨hnav, -⟩ := run_nav (δ := δ) D opening x
  obtain ⟨id, vc, hfront, hvc, hbet⟩ := h.lobby
  obtain ⟨vc', hvc'⟩ := Option.ne_none_iff_exists'.mp h.loads
  have hnew := hvc'
  rw [run_concat, step_client_self] at hnew
  obtain ⟨id', hfront', rfl⟩ := Client.loaded_bet hnav _ h.unloaded hnew
  rw [hfront] at hfront'
  cases hfront'
  rw [hvc', hvc, Option.bind_some, hbet]

theorem Game.staked (h : Game δ D x opening e post handed room current)
    (hscans : D.Along (δ := δ) ScansRooms (opening ++ [.client x e]))
    (hr : ((D.run opening : System ι δ).clients x).currentRID = some rid) :
    Staked rid current handed x (D.run (opening ++ [.client x e]) : System ι δ) := by
  obtain ⟨hscans', hscan⟩ := Along.concat.mp hscans
  obtain ⟨hnav, -⟩ := run_nav (δ := δ) D opening x
  have hfresh := run_fresh D hscans'
  obtain ⟨-, hdata, -⟩ := (hfresh.entered x).current _ hr
  have hreading : Reading rid ((D.run opening : System ι δ).clients x) := by
    refine ⟨?_, pending_afterCreate hfresh (run_inTurn D hscans' x) hr⟩
    intro o ho hb
    obtain ⟨-, -, -, hobs, -⟩ := hnav.idle (by rw [h.unloaded]; rfl)
    obtain ⟨id', hb'⟩ := hobs o ho
    rw [hb'] at hb
    cases hb
  refine ⟨?_, ?_, _, h.loaded, ?_, fun _ => rfl⟩
  · rw [run_concat]
    exact hreading.step hnav hfresh hscan hdata fun _ => hr
  · rw [run_concat]
    exact hfresh.hasData_step hdata
  · intro hlab
    exact absurd rfl hlab

theorem Game.run (h : Game δ D x opening e post handed room current)
    (hscans : D.Along (δ := δ) ScansRooms (opening ++ [.client x e] ++ post))
    (horder : D.Along (δ := δ) (InOrderAt x) (opening ++ [.client x e] ++ post))
    (hr : ((D.run opening : System ι δ).clients x).currentRID = some rid)
    (hcreate : Creates δ D (opening ++ [.client x e] ++ post) rid current)
    {q : List (Event ι)} (hq : q <+: post) :
    Staked rid current handed x (D.run (opening ++ [.client x e] ++ q) : System ι δ) := by
  induction q using List.reverseRecOn with
  | nil => simpa using h.staked (Along.append.mp hscans).1 hr
  | append_singleton q ev ih =>
    have hev : ev ∈ post := hq.subset (by simp)
    rw [← List.append_assoc]
    refine (ih ((List.prefix_append q [ev]).trans hq)).step hscans horder hcreate ?_ ?_
    · rw [List.append_assoc]
      exact (List.prefix_append_right_inj _).mpr hq
    · rintro rfl
      exact h.stays hev

/-! ## What is shown -/

/-- The stakes that the process has shown. -/
def Client.bets (c : Client) : List (Option ℚ) := c.calls.filterMap Call.bet

theorem bets_step {c : Client} (env : Env δ) {e : ClientEvent} (hl : e ≠ .relaunch) :
    (c.step env e).client.bets = c.bets ++ (c.issued env e).filterMap Call.bet := by
  rw [Client.bets, Client.calls_step env hl, List.filterMap_append]
  rfl

/-- Before the stats controller is loaded no stake is shown. -/
theorem run_bets_unloaded (D : Deployment ι) (evs : List (Event ι)) (x : ι)
    (hs : ((D.run evs : System ι δ).clients x).stats = none) :
    ((D.run evs : System ι δ).clients x).bets = [] := by
  refine (client_invariant (δ := δ) D (P := fun c => (c.Nav ∧ c.Writes Client.Sent) ∧
    (c.stats = none → c.bets = [])) ⟨run_nav (δ := δ) D [] x, fun _ => rfl⟩ ?_ evs x).2 hs
  intro c env e hi
  obtain ⟨⟨hnav, hsent⟩, hbets⟩ := hi
  refine ⟨⟨hnav.step hsent env e, hsent.step env e fun _ hw => Client.sent_of_emits hw⟩, ?_⟩
  intro hs
  by_cases hl : e = .relaunch
  · subst hl
    rfl
  rw [bets_step env hl]
  cases hc : c.stats with
  | none => rw [hbets hc, hnav.bets_issued env e hc, List.nil_append]
  | some vc =>
    -- a running process keeps its stats controller
    exfalso
    cases hr : c.readsBet env e with
    | some bet =>
      obtain ⟨vc', hvc', -⟩ := Client.stats_of_readsBet env hc hr
      rw [hs] at hvc'
      cases hvc'
    | none =>
      obtain ⟨vc', hvc', -⟩ := Client.bet_step hnav env hl hc hr
      rw [hs] at hvc'
      cases hvc'

theorem showsBet_of_readsBet {c : Client} {env : Env δ} {e : ClientEvent} {bet : Option ℚ}
    (h : c.readsBet env e = some bet) : c.showsBet env e = false := by
  cases e with
  | snapshot k i overlaid =>
    simp only [Client.readsBet] at h
    split at h
    · rename_i o db ho hdb
      split at h
      · rename_i hb
        simp [Client.showsBet, ho, hdb, hb]
      · cases h
    · cases h
  | _ => cases h

/-- Which stake a step of a running game shows, if any. -/
inductive ShowsStep (D : Deployment ι) (x : ι) (s : System ι δ) (e : Event ι)
    (handed : Option ℚ) (read : ℚ) : List (Option ℚ) → Prop
  | nothing : ¬ ShowsEarly D x s e → ¬ ReadsLabel D x s e → ShowsStep D x s e handed read []
  | early : ShowsEarly D x s e → ¬ ReadsLabel D x s e → ShowsStep D x s e handed read [handed]
  | label : ¬ ShowsEarly D x s e → ReadsLabel D x s e → ShowsStep D x s e handed read [some read]
  | later {vc} : ¬ ShowsEarly D x s e → ¬ ReadsLabel D x s e → (s.clients x).stats = some vc →
      vc.labelled → ShowsStep D x s e handed read [some read]

theorem shows_step {s : System ι δ} {ev : Event ι} (hstay : ev ≠ .client x .relaunch)
    (hst : Staked rid room handed x s) (hst' : Staked rid room handed x (s.step D ev)) :
    ∃ new, ((s.step D ev).clients x).bets = (s.clients x).bets ++ new ∧
      ShowsStep D x s ev handed room.betAmount new := by
  rcases clients_step D s ev x with ⟨hother, hsame⟩ | ⟨e, rfl, hown⟩
  · refine ⟨[], by rw [hsame, List.append_nil], .nothing ?_ ?_⟩
    · intro hx
      obtain ⟨e', -, he, -⟩ := hx
      exact hother e' he
    · intro hx
      obtain ⟨e', he, -⟩ := hx
      exact hother e' he
  · have hl : e ≠ .relaunch := by
      rintro rfl
      exact hstay rfl
    obtain ⟨vc, hvc, hlab, hunlab⟩ := hst.bet
    refine ⟨_, by rw [hown, bets_step _ hl], ?_⟩
    rw [Client.bets_issued _ e hvc]
    cases hr : (s.clients x).readsBet (s.env D x) e with
    | some bet =>
      -- the label is set, to what the room has
      obtain ⟨vc', hvc', hl', hbet⟩ := Client.stats_of_readsBet _ hvc hr
      obtain ⟨vc'', hvc'', hlab', -⟩ := hst'.bet
      rw [hown, hvc'] at hvc''
      cases hvc''
      rw [← hbet, hlab' hl']
      refine .label ?_ ⟨e, rfl, by rw [hr]; simp⟩
      intro hx
      obtain ⟨e', -, he, -, -, hshow⟩ := hx
      cases he
      rw [showsBet_of_readsBet hr] at hshow
      cases hshow
    | none =>
      have hreads : ¬ ReadsLabel D x s (.client x e) := by
        intro hx
        obtain ⟨e', he, hne⟩ := hx
        cases he
        exact hne hr
      cases hshow : (s.clients x).showsBet (s.env D x) e with
      | false =>
        refine .nothing ?_ hreads
        intro hx
        obtain ⟨e', -, he, -, -, hshow'⟩ := hx
        cases he
        rw [hshow] at hshow'
        cases hshow'
      | true =>
        simp only [if_true]
        by_cases hv : vc.labelled
        · rw [hlab hv]
          refine .later ?_ hreads hvc hv
          intro hx
          obtain ⟨-, vc', -, hvc', hv', -⟩ := hx
          rw [hvc] at hvc'
          cases hvc'
          exact hv' hv
        · rw [hunlab hv]
          exact .early ⟨e, vc, rfl, hvc, hv, hshow⟩ hreads

/-- Up to some step of a game: what was shown, and that a label that is set was read. -/
structure Shown (D : Deployment ι) (x : ι) (start : System ι δ) (post : List (Event ι))
    (handed : Option ℚ) (read stake : ℚ) : Prop where
  iff : (∀ bet ∈ ((exec (System.step D) start post).clients x).bets, bet = some stake) ↔
    (handed = some stake ∨
      Machine.Along (System.step D) (fun s e => ¬ ShowsEarly D x s e) start post) ∧
    (read = stake ∨ Machine.Along (System.step D) (fun s e => ¬ ReadsLabel D x s e) start post)
  read : ∀ vc, ((exec (System.step D) start post).clients x).stats = some vc → vc.labelled →
    ¬ Machine.Along (System.step D) (fun s e => ¬ ReadsLabel D x s e) start post

theorem Shown.step {start : System ι δ} {q : List (Event ι)} {ev : Event ι} {stake : ℚ}
    (hnav : ((exec (System.step D) start q).clients x).Nav) (hstay : ev ≠ .client x .relaunch)
    (hst : Staked rid room handed x (exec (System.step D) start q))
    (hst' : Staked rid room handed x (exec (System.step D) start (q ++ [ev])))
    (h : Shown D x start q handed room.betAmount stake) :
    Shown D x start (q ++ [ev]) handed room.betAmount stake := by
  rw [exec_concat] at hst'
  obtain ⟨new, hbets, hnew⟩ := shows_step hstay hst hst'
  have hiff := h.iff
  refine ⟨?_, ?_⟩
  · rw [exec_concat, hbets, List.forall_mem_append, hiff, Along.concat, Along.concat]
    cases hnew with
    | nothing he hr => simp [he, hr]
    | early he hr =>
      -- what is handed over has to be the stake
      simp only [List.forall_mem_singleton, he, hr, not_true_eq_false, not_false_eq_true,
        and_false, or_false, and_true]
      exact ⟨fun h => ⟨h.2, h.1.2⟩, fun h => ⟨⟨.inl h.1, h.2⟩, h.1⟩⟩
    | label he hr =>
      -- what is read has to be the stake
      simp only [List.forall_mem_singleton, Option.some_inj, he, hr, not_true_eq_false,
        not_false_eq_true, and_false, or_false, and_true]
      exact ⟨fun h => ⟨h.1.1, h.2⟩, fun h => ⟨⟨h.1, .inl h.2⟩, h.2⟩⟩
    | later he hr hvc hv =>
      -- the read has been shown before
      have hread := h.read _ hvc hv
      simp only [List.forall_mem_singleton, Option.some_inj, he, hr, hread, not_false_eq_true,
        or_false, and_true, and_assoc, and_self_iff]
  · intro vc' hvc' hv' halong
    obtain ⟨hq, hnot⟩ := Along.concat.mp halong
    rw [exec_concat] at hvc'
    rcases clients_step D (exec (System.step D) start q) ev x with ⟨-, hsame⟩ | ⟨e, rfl, hown⟩
    · rw [hsame] at hvc'
      exact h.read vc' hvc' hv' hq
    · obtain ⟨vc, hvc, -⟩ := hst.bet
      have hl : e ≠ .relaunch := by
        rintro rfl
        exact hstay rfl
      have hr : ((exec (System.step D) start q).clients x).readsBet
          ((exec (System.step D) start q).env D x) e = none := by
        by_contra hne
        exact hnot ⟨e, rfl, hne⟩
      obtain ⟨vc'', hvc'', -, hlabelled⟩ := Client.bet_step hnav _ hl hvc hr
      rw [hown, hvc''] at hvc'
      cases hvc'
      exact h.read vc hvc (hlabelled.mp hv') hq

theorem Game.shown (h : Game δ D x opening e post handed room current) (read stake : ℚ) :
    Shown D x (D.run (opening ++ [.client x e]) : System ι δ) [] handed read stake := by
  have hnone : ((D.run (opening ++ [.client x e]) : System ι δ).clients x).bets = [] := by
    have hl : e ≠ .relaunch := by
      rintro rfl
      have hloads := h.loads
      rw [run_concat, step_client_self] at hloads
      exact hloads rfl
    rw [run_concat, step_client_self, bets_step _ hl, run_bets_unloaded D opening x h.unloaded,
      (run_nav D opening x).1.bets_issued _ e h.unloaded, List.nil_append]
  refine ⟨iff_of_true ?_ ⟨.inr trivial, .inr trivial⟩, ?_⟩
  · rw [exec_nil, hnone]
    exact fun bet hb => (List.not_mem_nil hb).elim
  · intro vc hvc hlab
    rw [exec_nil, h.loaded] at hvc
    cases hvc
    exact absurd rfl hlab

/-- **What the stake shown depends on.** In a game every stake that the process shows is
the one its room was created with, exactly if the lobby was handed that stake or nothing is
shown before the label is read, and the room that is read is one of that stake. -/
theorem stake_shown_iff (D : Deployment ι) {x : ι} {opening post : List (Event ι)}
    {e : ClientEvent} {handed : Option ℚ} {room current : Room}
    (hgame : Game δ D x opening e post handed room current)
    (hscans : D.Along (δ := δ) ScansRooms (opening ++ [.client x e] ++ post))
    (horder : D.Along (δ := δ) (InOrderAt x) (opening ++ [.client x e] ++ post)) :
    (∀ call ∈ ((D.run (opening ++ [.client x e] ++ post) : System ι δ).clients x).calls,
      ∀ bet, call.bet = some bet → bet = some room.betAmount) ↔
    (handed = some room.betAmount ∨
      Machine.Along (System.step D) (fun s e => ¬ ShowsEarly D x s e)
        (D.run (opening ++ [.client x e]) : System ι δ) post) ∧
    (current.betAmount = room.betAmount ∨
      Machine.Along (System.step D) (fun s e => ¬ ReadsLabel D x s e)
        (D.run (opening ++ [.client x e]) : System ι δ) post) := by
  obtain ⟨rid, hr, hcreate⟩ := hgame.current
  have hstaked : ∀ {q}, q <+: post → Staked rid current handed x
      (exec (System.step D) (D.run (opening ++ [.client x e]) : System ι δ) q) := by
    intro q hq
    rw [← run_append]
    exact hgame.run hscans horder hr hcreate hq
  have hshown : ∀ q, q <+: post → Shown D x (D.run (opening ++ [.client x e]) : System ι δ) q
      handed current.betAmount room.betAmount := by
    intro q
    induction q using List.reverseRecOn with
    | nil => exact fun _ => hgame.shown _ _
    | append_singleton q ev ih =>
      intro hq
      have hq' := (List.prefix_append q [ev]).trans hq
      refine (ih hq').step ?_ ?_ (hstaked hq') (hstaked hq)
      · rw [← run_append]
        exact (run_nav D _ x).1
      · rintro rfl
        exact hgame.stays (hq.subset (by simp))
  rw [← (hshown post List.prefix_rfl).iff, ← run_append, Client.bets]
  constructor
  · intro h bet hbet
    obtain ⟨call, hcall, hb⟩ := List.mem_filterMap.mp hbet
    exact h call hcall bet hb
  · intro h call hcall bet hb
    exact h bet (List.mem_filterMap.mpr ⟨call, hcall, hb⟩)

end

/-- Ann starts the room that Bob has joined. -/
def annStarts : List (Event Bool) :=
  bothInLobby ++ [.client false .startRoomTUI, .client false (.deliverWrite true)]

/-- Bob's listener and his label come after Ann has left the app. -/
def annLostFirst : List (Event Bool) :=
  [.client true .appear, .client false (.snapshot 0 3 true), .client false .appear] ++
    leaves false 1001 ++ [.client true (.snapshot 2 4 true), .client true (.snapshot 1 4 true)]

/-- Bob reads his label before Ann leaves the app. -/
def labelFirst : List (Event Bool) :=
  [.client true .appear, .client true (.snapshot 1 3 true), .client false (.snapshot 0 3 true),
    .client false .appear] ++ leaves false 1001 ++ [.client true (.snapshot 1 4 true)]

theorem bobs_game (post : List (Event Bool)) (hstay : .client true .relaunch ∉ post) :
    Game LeafTree twoPhones true annStarts (.snapshot 0 3 true) post none ⟨60, 5, 0⟩
      ⟨60, 5, 0⟩ := by
  have hcreates : Creates LeafTree twoPhones
      (annStarts ++ [.client true (.snapshot 0 3 true)] ++ post) "-" ⟨60, 5, 0⟩ := by
    refine ⟨bothInLobby.take 3, .client false (.deliverWrite true), ⟨"Ann", 0, "uidA"⟩, ?_, ?_⟩
    · rw [List.append_assoc]
      exact (show bothInLobby.take 3 ++ [.client false (.deliverWrite true)] <+: annStarts by
        decide).trans (List.prefix_append _ _)
    · decide +kernel
  refine ⟨⟨bothInLobby.take 9, .client true .appear :: annStarts.drop 11, "-", by decide,
    by decide, by decide +kernel, hcreates, by decide +kernel⟩,
    ⟨"-", by decide +kernel, hcreates⟩, by decide +kernel, ?_, hstay⟩
  have hloaded : ((twoPhones.run (annStarts ++ [.client true (.snapshot 0 3 true)]) :
      System Bool LeafTree).clients true).stats.isSome = true := by decide +kernel
  intro hn
  rw [hn] at hloaded
  cases hloaded

/-- Bob reads his label first, and nothing shows a stake before. -/
theorem stake_shown_labelFirst :
    Call.performToResults (some "Ann") (some 5) ∈
      ((twoPhones.run (annStarts ++ [.client true (.snapshot 0 3 true)] ++ labelFirst) :
        System Bool LeafTree).clients true).calls ∧
    ∀ call ∈ ((twoPhones.run (annStarts ++ [.client true (.snapshot 0 3 true)] ++ labelFirst) :
      System Bool LeafTree).clients true).calls, ∀ bet, call.bet = some bet → bet = some 5 :=
  ⟨by decide +kernel, (stake_shown_iff twoPhones (bobs_game labelFirst (by decide))
    (by decide +kernel) (by decide +kernel)).mpr ⟨.inr (by decide +kernel), .inl rfl⟩⟩

/-- Bob is shown a loser before his label is read, and the results get no stake. -/
theorem joiner_shows_nil :
    ¬ ∀ (post : List (Event Bool)),
      Game LeafTree twoPhones true annStarts (.snapshot 0 3 true) post none ⟨60, 5, 0⟩
        ⟨60, 5, 0⟩ →
      twoPhones.Along (δ := LeafTree) (fun s e => ScansRooms s e ∧ InOrder s e)
        (annStarts ++ [.client true (.snapshot 0 3 true)] ++ post) →
      ∀ call ∈ ((twoPhones.run (annStarts ++ [.client true (.snapshot 0 3 true)] ++ post) :
        System Bool LeafTree).clients true).calls, ∀ bet, call.bet = some bet → bet = some 5 := by
  intro h
  have hshown := h annLostFirst (bobs_game _ (by decide)) (by decide +kernel)
    (.performToResults (some "Ann") none) (by decide +kernel) none rfl
  cases hshown

end Unplug.App
