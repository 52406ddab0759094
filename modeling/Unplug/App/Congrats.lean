import Unplug.App.Agreement
import Unplug.App.Deadline
import Unplug.App.SchemaRuns

/-! # When nobody used their phone

The results screen congratulates when the timer ends the game before a snapshot
with a loser does. The timer ends it within the last second, and it looks at what
the client has been shown, not at the server. Where that is all there is and no
older mark is on its way, nobody in the room loses before that second. -/
namespace Unplug.App
open Unplug.Store Unplug.Firebase Unplug.Machine Unplug.Room RealtimeDatabase

/-! ## What the stats controller knows -/

namespace Client
section
variable {δ : Type*} [RealtimeDatabase δ] {c : Client}

/-- A snapshot with a loser leaves its name in the stats controller. -/
theorem knowsLoser_of_delivers (hatt : c.Attached) {env : Env δ} {e : ClientEvent} {o : Observer}
    {db : δ} (hd : Delivers env c e o db) (hb : o.block = .stats) (hn : loserName db o.ref ≠ "") :
    (c.step env e).client.KnowsLoser := by
  obtain ⟨k, i, overlaid, rfl, hk, hv⟩ := hd
  obtain ⟨vc, r, hs, -, -⟩ := hatt.listener o (List.mem_of_getElem? hk) hb
  refine ⟨{ vc with loserName := some (loserName db o.ref) }, _, ?_, rfl⟩
  obtain ⟨obs, -, heq⟩ := c.deliver_eq k o db
  simp only [step, snapshot, hk, hv, heq, hb, listener, hs, if_pos hn]
  exact stats_performToResults _

/-- It stays there until the process ends. -/
theorem KnowsLoser.step (h : c.KnowsLoser) (hnav : c.Nav) (env : Env δ) {e : ClientEvent}
    (hl : e ≠ .relaunch) : (c.step env e).client.KnowsLoser := by
  obtain ⟨vc, n, hs, hn⟩ := h
  have hstep := stats_step hnav env e
  rw [hs] at hstep
  generalize hs' : (c.step env e).client.stats = s' at hstep
  cases hstep with
  | same => exact ⟨vc, n, hs', hn⟩
  | relaunched he => exact absurd he hl
  | observed => exact ⟨_, n, hs', hn⟩
  | lost => exact ⟨_, _, hs', rfl⟩
  | labelled => exact ⟨_, n, hs', hn⟩
  | ticked => exact ⟨_, n, hs', hn⟩
  | backgrounded => exact ⟨_, n, hs', hn⟩
  | locked => exact ⟨_, n, hs', hn⟩

/-- Congratulations come from a tick of the timer that finds no loser. -/
theorem tick_of_congrats {env : Env δ} {e : ClientEvent} {bet : Option ℚ}
    (hnone : c.results = none) (h : (c.step env e).client.results = some ⟨none, bet⟩) :
    e = .updateTimer ∧ ¬ c.KnowsLoser ∧
      ∃ vc, c.stats = some vc ∧ vc.timer = .scheduled ∧ vc.timeLeft env.now < 1 := by
  rcases results_step (c := c) env e with hsame | he | ⟨vc, bet', hs, -, -, hcase⟩
  · rw [hsame, hnone] at h
    cases h
  · subst he
    cases h
  · rcases hcase with ⟨o, db, -, -, -, hr⟩ | ⟨he, ht, hleft, hr⟩
    · rw [hr] at h
      cases h
    · rw [hr] at h
      refine ⟨he, ?_, vc, hs, ht, hleft⟩
      intro hk
      obtain ⟨vc', n, hs', hn⟩ := hk
      obtain rfl : vc = vc' := Option.some.inj (hs.symm.trans hs')
      rw [hn] at h
      cases h

end

/-! ## Marks in flight -/

/-- Every mark of the room that the client has in flight has a time after `bound`. -/
def MarksAfter (rid : String) (bound : ℚ) (c : Client) : Prop :=
  ∀ t ∈ c.transactions, t.rid = rid → t.committed = false → ∀ p ∈ t.run, bound < p.2

instance (rid : String) (bound : ℚ) (c : Client) : Decidable (c.MarksAfter rid bound) :=
  inferInstanceAs (Decidable (∀ t ∈ c.transactions, _ → _ → ∀ p ∈ t.run, _))

/-- A block that runs reads the time then. -/
theorem MarksAfter.step {δ : Type*} [RealtimeDatabase δ] {c : Client} {rid : String} {bound : ℚ}
    (h : c.MarksAfter rid bound) (env : Env δ) (e : ClientEvent) (hnow : bound < env.now) :
    (c.step env e).client.MarksAfter rid bound := by
  intro t ht hrid hc p hp
  cases transaction_step env e ht with
  | same hm => exact h t hm hrid hc p hp
  | ran value hm =>
    cases hp
    exact hnow
  | returned hm => cases hp
  | committed hm => cases hc
  | begun => cases hp

end Client

section
variable {ι δ : Type*} [RealtimeDatabase δ]

/-! ## After the deadline -/

/-- In every state of the server, nobody in the room has a time up to `bound`. -/
def NobodyBy (rid : String) (bound : ℚ) (s : System ι δ) : Prop :=
  ∀ d ∈ s.history, ∀ uid t, timeAt d rid uid = some t → ¬ (0 < t ∧ t ≤ bound)

/-- Nobody has lost by `bound`, which is past, and no mark that is in flight
would change that. -/
structure Over (rid : String) (bound : ℚ) (s : System ι δ) : Prop where
  past : bound < s.now
  marks : ∀ x, (s.clients x).MarksAfter rid bound
  current : ∀ uid t, timeAt s.db rid uid = some t → ¬ (0 < t ∧ t ≤ bound)
  nobody : NobodyBy rid bound s

variable [DecidableEq ι]

/-- **A game that is over stays as it is.** -/
theorem over_step {D : Deployment ι} {evs : List (Event ι)} {rid : String} {bound : ℚ}
    (hk : IsKey rid) (hscans : D.Along (δ := δ) ScansRooms evs)
    (h : Over rid bound (D.run evs : System ι δ)) (e : Event ι) :
    Over rid bound ((D.run evs : System ι δ).step D e) := by
  have hfresh := run_fresh D hscans
  cases e with
  | clock t => exact ⟨h.past.trans_le (le_max_left _ _), h.marks, h.current, h.nobody⟩
  | client x e =>
    have hpast : bound < ((D.run evs : System ι δ).step D (.client x e)).now := by
      rw [step_client_now]
      exact h.past
    have hmarks : ∀ y,
        (((D.run evs : System ι δ).step D (.client x e)).clients y).MarksAfter rid bound := by
      intro y
      rcases clients_step D (D.run evs : System ι δ) (.client x e) y with ⟨-, hsame⟩ |
        ⟨e', -, hown⟩
      · rw [hsame]
        exact h.marks y
      · rw [hown]
        exact (h.marks y).step _ e' h.past
    cases hop : (D.run evs : System ι δ).applied D (.client x e) with
    | none =>
      obtain ⟨hdb, hhist⟩ := db_step_none D hop
      refine ⟨hpast, hmarks, ?_, ?_⟩
      · rw [hdb]
        exact h.current
      · rw [NobodyBy, hhist]
        exact h.nobody
    | some op =>
      obtain ⟨hdb, hhist⟩ := db_step_some D hop
      have hnew : ∀ uid t, timeAt (op.apply (D.run evs : System ι δ).db) rid uid = some t →
          ¬ (0 < t ∧ t ≤ bound) := by
        intro uid t ht hlate
        rcases timeAt_apply hk (hfresh.applied hop).1 ht with hold | hzero | hmark
        · exact h.current uid t hold hlate
        · rw [hzero] at hlate
          exact absurd hlate.1 (lt_irrefl 0)
        · rcases applied_cases D hop with ⟨-, w, rest, ho, hw⟩ |
            ⟨k, tr, value, now, -, htr, hc, hrun, -, hw⟩
          · -- no write of an outbox is a mark
            have hscans' := hscans.mono fun _ _ h => ScansRooms.scansKeys h
            obtain ⟨-, hown⟩ := (run_keys D hscans' x).2.1 w (by rw [ho]; exact List.mem_cons_self)
            rw [← hw, hmark] at hown
            exact hown
          · rw [hmark] at hw
            cases hw
            exact absurd hlate.2 (not_le.mpr
              (h.marks x tr (List.mem_of_getElem? htr) rfl hc _ hrun))
      refine ⟨hpast, hmarks, ?_, ?_⟩
      · rw [hdb]
        exact hnew
      · intro d hd
        rw [hhist] at hd
        rcases List.mem_append.mp hd with hd | hd
        · exact h.nobody d hd
        · rw [List.mem_singleton.mp hd]
          exact hnew

theorem over_append {D : Deployment ι} {evs rest : List (Event ι)} {rid : String} {bound : ℚ}
    (hk : IsKey rid) (hscans : D.Along (δ := δ) ScansRooms (evs ++ rest))
    (h : Over rid bound (D.run evs : System ι δ)) :
    Over rid bound (D.run (evs ++ rest) : System ι δ) := by
  induction rest using List.reverseRecOn with
  | nil =>
    rw [List.append_nil]
    exact h
  | append_singleton rest e ih =>
    rw [← List.append_assoc] at hscans ⊢
    obtain ⟨hscans', -⟩ := Along.concat.mp hscans
    rw [run_concat]
    exact over_step hk hscans' (ih hscans') e

/-! ## Before the tick -/

/-- Whom the write has join the room. -/
def joinedBy (rid : String) : RoomOp → Option String
  | .joinRoomWithRID rid' user => if rid' = rid then some user.uid else none
  | _ => none

/-- Nobody with a recorded loss in the room joins it again. -/
def NoLoserJoins (D : Deployment ι) (rid : String) (s : System ι δ) (e : Event ι) : Prop :=
  ∀ op ∈ s.applied D e, ∀ uid ∈ joinedBy rid op, ∀ t ∈ timeAt s.db rid uid, t = 0

instance (D : Deployment ι) (rid : String) (s : System ι δ) (e : Event ι) :
    Decidable (NoLoserJoins D rid s e) :=
  inferInstanceAs (Decidable (∀ op ∈ s.applied D e, ∀ uid ∈ joinedBy rid op, ∀ t ∈ _, _))

section
variable {D : Deployment ι} {evs : List (Event ι)} {rid : String} {x : ι}

/-- A loss that the server has ever recorded in the room is recorded still. -/
theorem run_lost (hk : IsKey rid) (hscans : D.Along (δ := δ) ScansRooms evs)
    (hjoins : D.Along (δ := δ) (NoLoserJoins D rid) evs) {uid : String} :
    ∀ d ∈ (D.run evs : System ι δ).history, lost d rid uid →
      lost (D.run evs : System ι δ).db rid uid := by
  refine (run_chain D (R := fun a b : δ => lost a rid uid → lost b rid uid) ?_ ?_ ?_).2
  · intro d h
    exact h
  · intro a b c hab hbc ha
    exact hbc (hab ha)
  · intro pre e op hpre hop hlost
    obtain ⟨post, rfl⟩ := hpre
    have hfresh := run_fresh D (Along.append.mp (Along.append.mp hscans).1).1
    have hjoin := (Along.concat.mp (Along.append.mp hjoins).1).2
    have hdata : HasData (D.run pre : System ι δ).db ["rooms", rid] :=
      hasData_of_append (MarkedIn.of_lost hk hlost).1
    refine lost_apply hk (hfresh.afterCreate hop hdata) ?_ hlost
    intro user he hu
    subst he
    obtain ⟨t, ht, hne⟩ := hlost
    exact hne (hjoin _ hop uid (by simp [joinedBy, hu]) t ht)

/-- Rooms of scanned codes keep the schema. -/
theorem run_writeFits (hscans : D.Along (δ := δ) ScansRooms evs) :
    D.Along (δ := δ) (WriteFits D) evs := by
  refine Deployment.along_iff.mpr ?_
  intro pre e post he op hop
  subst he
  have hfresh := run_fresh D (Along.append.mp hscans).1
  cases e with
  | clock t => cases hop
  | client x e =>
    obtain ⟨hk, hcase⟩ := hfresh.applied hop
    have hdata : Client.created op = none →
        HasData (D.run pre : System ι δ).db ["rooms", op.rid] := by
      intro hnone
      refine hcase.resolve_right ?_
      intro h
      obtain ⟨w, rest, -, -, hw, hc⟩ := h
      rw [← hw, hnone] at hc
      cases hc
    cases op with
    | createAndJoinRoom => trivial
    | mark => trivial
    | joinRoomWithRID rid user =>
      simp only [RoomOp.rid] at hk
      exact .inl ⟨rid, user.uid, by rw [childPath_key hk]; rfl, hdata rfl⟩
    | startRoom rid timestamp => exact .inl ⟨rid, childPath_key hk, hdata rfl⟩

/-- Every user in a room has the name of a player. -/
theorem run_names (hscans : D.Along (δ := δ) ScansRooms evs)
    (hnames : ∀ y, (D.user y).name ≠ "") {uid : String}
    (hu : HasData (D.run evs : System ι δ).db ["rooms", rid, "users", uid]) :
    ∃ name, leafAt (D.run evs : System ι δ).db ["rooms", rid, "users", uid, "name"] =
      some (.str name) ∧ name ≠ "" := by
  have hroom : HasData (D.run evs : System ι δ).db ["rooms", rid] := hasData_of_append hu
  obtain ⟨⟨name, hname⟩, -⟩ := (run_schema D (run_writeFits hscans) rid hroom).entries uid hu
  have hscans' := hscans.mono fun _ _ h => ScansRooms.scansKeys h
  obtain ⟨user, hp, -, he⟩ := (run_justified D hscans').1.name rid uid _ hname
  obtain ⟨y, rfl⟩ := hp
  cases he
  exact ⟨_, hname, hnames y⟩

/-- The listener of the phone's running process has been shown the users of the
room as the server has them. -/
def ShownUsers (D : Deployment ι) (δ : Type*) [RealtimeDatabase δ] (rid : String) (x : ι)
    (evs : List (Event ι)) : Prop :=
  ∃ pre e post o, ∃ db : δ, evs = pre ++ [.client x e] ++ post ∧ .client x .relaunch ∉ post ∧
    Client.Delivers ((D.run pre : System ι δ).env D x) ((D.run pre : System ι δ).clients x) e o
      db ∧ o.block = .stats ∧ o.ref = roomUsersRef rid ∧
    ∀ uid, userSubtree rid uid db = userSubtree rid uid (D.run evs : System ι δ).db

/-- A listener that is shown the current state has been shown its users, where the
phone has no pending writes or marks of its own. -/
theorem shownUsers_of_latest {k i : ℕ} {overlaid : Bool}
    (hk : ((D.run evs : System ι δ).clients x).observers[k]? =
      some ⟨roomUsersRef rid, .stats, false⟩)
    (hi : (D.run evs : System ι δ).history.length = i + 1)
    (hpending : ((D.run evs : System ι δ).clients x).pending = [])
    (hmarks : ((D.run evs : System ι δ).clients x).transactions = []) :
    ShownUsers D δ rid x (evs ++ [.client x (.snapshot k i overlaid)]) := by
  have hlast := getLast_history (δ := δ) D evs
  rw [List.getLast?_eq_getElem?, hi, Nat.add_sub_cancel] at hlast
  have hview : ((D.run evs : System ι δ).clients x).view ((D.run evs : System ι δ).env D x) i
      overlaid = some (D.run evs : System ι δ).db := by
    unfold Client.view Client.overlay
    rw [hpending, hmarks]
    simp [System.env, hlast]
  refine ⟨evs, .snapshot k i overlaid, [], _, _, (List.append_nil _).symm, List.not_mem_nil,
    ⟨k, i, overlaid, rfl, hk, hview⟩, rfl, rfl, ?_⟩
  intro uid
  rw [run_concat, (db_step_none D rfl).1]

/-- **A loss on the server that the listener has been shown is known to the client.** -/
theorem knowsLoser_of_lost (hk : IsKey rid) (hscans : D.Along (δ := δ) ScansRooms evs)
    (hnames : ∀ y, (D.user y).name ≠ "") (hshown : ShownUsers D δ rid x evs) {uid : String}
    (h : lost (D.run evs : System ι δ).db rid uid) :
    ((D.run evs : System ι δ).clients x).KnowsLoser := by
  have hn : loserName (D.run evs : System ι δ).db (roomUsersRef rid) ≠ "" :=
    loserName_ne hk (fun _ => run_names hscans hnames) (MarkedIn.of_lost hk h)
  obtain ⟨pre, e, post, o, db, rfl, hpost, hd, hb, href, hsame⟩ := hshown
  rw [← loserName_congr hk hsame, ← href] at hn
  clear hscans hsame h
  induction post using List.reverseRecOn with
  | nil =>
    rw [List.append_nil, run_concat, step_client_self]
    exact Client.knowsLoser_of_delivers (run_attached D pre x).2 hd hb hn
  | append_singleton post e' ih =>
    have hbefore := ih fun hm => hpost (List.mem_append_left _ hm)
    rw [← List.append_assoc, run_concat]
    rcases clients_step D (D.run (pre ++ [.client x e] ++ post) : System ι δ) e' x with
      ⟨-, hsame⟩ | ⟨e'', rfl, hown⟩
    · rw [hsame]
      exact hbefore
    · rw [hown]
      refine hbefore.step (run_attached D _ x).1 _ ?_
      intro he
      subst he
      exact hpost (by simp)

end

/-- **The congratulations are sound up to the last second.** The results load
without a loser in a room started at `timestamp`, when the phone's listener has
been shown the users as they are on the server, no mark in flight has an earlier
time, and nobody that had lost has joined again. Then no state of the server,
earlier or later, has a time up to one second before the deadline. -/
theorem congrats_sound (D : Deployment ι) {evs pre : List (Event ι)} {x : ι} {e : ClientEvent}
    {rid : String} {timestamp limit : ℚ} {bet : Option ℚ}
    (hrun : pre ++ [.client x e] <+: evs) (hscans : D.Along (δ := δ) ScansRooms evs)
    (horder : D.Along (δ := δ) InOrder pre)
    (hoverlaid : D.Along (δ := δ) (fun _ e => e.overlaid = true) pre)
    (hacc : D.Along (δ := δ) (AcceptsStarts rid) pre)
    (htaps : D.Along (δ := δ) (TapsAt rid timestamp) pre)
    (hsteady : D.Along (δ := δ) (SteadyRID x) pre)
    (hjoins : D.Along (δ := δ) (NoLoserJoins D rid) pre)
    (hnames : ∀ y, (D.user y).name ≠ "")
    (hr : ((D.run pre : System ι δ).clients x).currentRID = some rid)
    (hlimit : numAt (D.run pre : System ι δ).db ["rooms", rid, "timeLimit"] = some limit)
    (hnone : ((D.run pre : System ι δ).clients x).results = none)
    (hload : ((D.run (pre ++ [.client x e]) : System ι δ).clients x).results = some ⟨none, bet⟩)
    (hshown : ShownUsers D δ rid x pre)
    (hmarks : ∀ y, ((D.run pre : System ι δ).clients y).MarksAfter rid (timestamp + limit - 1)) :
    NobodyBy rid (timestamp + limit - 1) (D.run evs : System ι δ) := by
  obtain ⟨post, rfl⟩ := hrun
  rw [List.append_assoc] at hscans ⊢
  have hscans' := (Along.append.mp hscans).1
  have hkey : IsKey rid := (((run_fresh D hscans').entered x).current rid hr).1
  rw [run_concat, step_client_self] at hload
  obtain ⟨-, hloser, vc, hvc, htimer, hleft⟩ := Client.tick_of_congrats hnone hload
  have hlabelled : vc.labelled := by
    rw [RoomStatsViewController.labelled, htimer]
    decide
  -- the tick comes in the last second or later
  have hpast : timestamp + limit - 1 < (D.run pre : System ι δ).now := by
    have hstart := (run_timed hscans' htaps horder hoverlaid hacc hsteady).label vc hvc hlabelled hr
    have hlim := label_timeLimit D hscans' horder hsteady hvc hlabelled hr
    rw [hlimit] at hlim
    rw [RoomStatsViewController.timeLeft, hstart, hlim] at hleft
    exact sub_lt_comm.mp hleft
  -- nobody is lost on the server at the tick, so nobody ever was
  have hkept : ∀ uid, ¬ lost (D.run pre : System ι δ).db rid uid :=
    fun uid h => hloser (knowsLoser_of_lost hkey hscans' hnames hshown h)
  have hover : Over rid (timestamp + limit - 1) (D.run pre : System ι δ) := by
    refine ⟨hpast, hmarks, ?_, ?_⟩
    · intro uid t ht hlate
      exact hkept uid ⟨t, ht, hlate.1.ne'⟩
    · intro d hd uid t ht hlate
      exact hkept uid (run_lost hkey hscans' hjoins d hd ⟨t, ht, hlate.1.ne'⟩)
  exact (over_append hkey hscans hover).nobody

end

/-! ## On two phones -/

/-- Both timers run, and both listeners are attached. -/
def timersRunning : List (Event Bool) :=
  oneStart ++ [.client false .ack, .client false .appear, .client true .appear]

/-- Half a second before the deadline, Ann's listener is shown what the server has. -/
def shownInTime : List (Event Bool) :=
  timersRunning ++ [.clock (2119 / 2), .client false (.snapshot 1 3 true)]

/-- Ann's timer ends the game, and then Bob leaves the app. -/
def annCongratulated : List (Event Bool) :=
  shownInTime ++ [.client false .updateTimer] ++ leaves true 1060

theorem congrats_sound_ann :
    NobodyBy "-" (1000 + 60 - 1) (twoPhones.run annCongratulated : System Bool LeafTree) := by
  have hshown : ShownUsers twoPhones LeafTree "-" false
      (timersRunning ++ [.clock (2119 / 2)] ++ [.client false (.snapshot 1 3 true)]) :=
    shownUsers_of_latest (by decide +kernel) (by decide +kernel) (by decide +kernel)
      (by decide +kernel)
  rw [List.append_assoc] at hshown
  have hscans : twoPhones.Along (δ := LeafTree) ScansRooms annCongratulated := by decide +kernel
  have horder : twoPhones.Along (δ := LeafTree) InOrder shownInTime := by decide +kernel
  have hoverlaid : twoPhones.Along (δ := LeafTree) (fun _ e => e.overlaid = true) shownInTime := by
    decide +kernel
  have hacc : twoPhones.Along (δ := LeafTree) (AcceptsStarts "-") shownInTime := by decide +kernel
  have htaps : twoPhones.Along (δ := LeafTree) (TapsAt "-" 1000) shownInTime := by decide +kernel
  have hsteady : twoPhones.Along (δ := LeafTree) (SteadyRID false) shownInTime := by decide +kernel
  have hjoins : twoPhones.Along (δ := LeafTree) (NoLoserJoins twoPhones "-") shownInTime := by
    decide +kernel
  have hnames : ∀ y, (twoPhones.user y).name ≠ "" := by decide
  have hload : ((twoPhones.run (shownInTime ++ [.client false .updateTimer]) :
      System Bool LeafTree).clients false).results = some ⟨none, some 5⟩ := by decide +kernel
  exact congrats_sound twoPhones (List.prefix_append _ _) hscans horder hoverlaid hacc htaps
    hsteady hjoins hnames (by decide +kernel) (by decide +kernel) (by decide +kernel) hload hshown
    (by decide +kernel)

/-- Bob without a name. -/
def namelessBob : Deployment Bool :=
  { twoPhones with
    user
      | false => ⟨"Ann", 0, "uidA"⟩
      | true => ⟨"", 0, "uidB"⟩
    uid_injective := by decide }

/-- Ann's timer ends the game half a second before the deadline. -/
def annTicks : List (Event Bool) := [.clock (2119 / 2), .client false .updateTimer]

/-- Ann's timer ends the game before Bob's check is due. -/
def checkedLater : List (Event Bool) :=
  timersRunning ++ [.clock (5296 / 5), .client true .didEnterBackground] ++ annTicks ++
    [.clock (5299 / 5), .client true (.check 0), .client true (.runBlock 0 (some (.num 0))),
      .client true (.compare 0)]

/-- Bob's block ran early on, and its mark is committed after Ann's timer ends the game. -/
def committedLater : List (Event Bool) :=
  timersRunning ++ [.client true .didEnterBackground, .clock 1031, .client true (.check 0),
    .client true (.runBlock 0 (some (.num 0)))] ++ annTicks ++ [.client true (.compare 0)]

/-- Bob's mark is on the server, and Ann is not shown it. -/
def neverShown : List (Event Bool) := timersRunning ++ leaves true 1031 ++ annTicks

/-- Bob joins the room again after his mark. -/
def joinsAgain : List (Event Bool) :=
  timersRunning ++ leaves true 1031 ++ [.client true .relaunch, .client true (.scanQRCode "-"),
    .client true (.deliverWrite true), .client false (.snapshot 1 5 true)] ++ annTicks

/-- Ann is shown the mark of a user without a name. -/
def shownNameless : List (Event Bool) :=
  timersRunning ++ leaves true 1031 ++ [.client false (.snapshot 1 4 true)] ++ annTicks

/-- The room `-` is scanned when it is there and started once, and the platform
keeps its order. -/
def StartedOnce (s : System Bool LeafTree) (e : Event Bool) : Prop :=
  ScansRooms s e ∧ InOrder s e ∧ e.overlaid = true ∧ AcceptsStarts "-" s e ∧
    TapsAt "-" 1000 s e ∧ ∀ x, SteadyRID x s e

instance (s : System Bool LeafTree) (e : Event Bool) : Decidable (StartedOnce s e) :=
  inferInstanceAs (Decidable (_ ∧ _))

/-- If Ann's phone congratulates, nobody ever has a time before the deadline. -/
def CongratsSound (s : System Bool LeafTree) : Prop :=
  (s.clients false).results = some ⟨none, some 5⟩ →
    ∀ d ∈ s.history, ∀ uid t, timeAt d "-" uid = some t → ¬ (0 < t ∧ t < 1000 + 60)

theorem not_congratsSound {s : System Bool LeafTree}
    (hload : (s.clients false).results = some ⟨none, some 5⟩)
    (h : ∃ d ∈ s.history, ∃ t ∈ timeAt d "-" "uidB", 0 < t ∧ t < 1000 + 60) :
    ¬ CongratsSound s := by
  obtain ⟨d, hd, t, ht, hearly⟩ := h
  intro hsound
  exact hsound hload d hd "uidB" t ht hearly

/-- In each of these runs Ann's phone congratulates, and Bob has, or had, a time
before the deadline. -/
theorem congrats_with_loser :
    (twoPhones.Along StartedOnce checkedLater ∧ ¬ CongratsSound (twoPhones.run checkedLater)) ∧
      (twoPhones.Along StartedOnce committedLater ∧
        ¬ CongratsSound (twoPhones.run committedLater)) ∧
      (twoPhones.Along StartedOnce neverShown ∧ ¬ CongratsSound (twoPhones.run neverShown)) ∧
      (twoPhones.Along StartedOnce joinsAgain ∧ ¬ CongratsSound (twoPhones.run joinsAgain)) ∧
      (namelessBob.Along StartedOnce shownNameless ∧
        ¬ CongratsSound (namelessBob.run shownNameless)) := by
  refine ⟨⟨by decide +kernel, ?_⟩, ⟨by decide +kernel, ?_⟩, ⟨by decide +kernel, ?_⟩,
    ⟨by decide +kernel, ?_⟩, ⟨by decide +kernel, ?_⟩⟩
  · exact not_congratsSound (by decide +kernel) (by decide +kernel)
  · exact not_congratsSound (by decide +kernel) (by decide +kernel)
  · exact not_congratsSound (by decide +kernel) (by decide +kernel)
  · exact not_congratsSound (by decide +kernel) (by decide +kernel)
  · exact not_congratsSound (by decide +kernel) (by decide +kernel)

end Unplug.App
