import Unplug.App.Congrats
import Unplug.App.Observing
import Unplug.App.Screens
import Unplug.Machine.Endless
import Mathlib.Algebra.Order.Archimedean.Basic

/-! # A game that has begun ends

What the stats controller waits for comes: the room's info, because a room that a phone
has entered never loses its data, and the deadline, because time passes. So on a phone
that is served and not relaunched, the stats controller leads to the results. -/
namespace Unplug.App
open Unplug.Store Unplug.Firebase Unplug.Machine Unplug.Room RealtimeDatabase

/-! ## Rooms shown with their data -/

section
variable {δ : Type*} [RealtimeDatabase δ]

/-- No write takes the time limit out of a room. -/
theorem limit_apply {op : RoomOp} (hk : IsKey op.rid) {db : δ} {rid : String}
    (h : leafAt db ["rooms", rid, "timeLimit"] ≠ none) :
    leafAt (op.apply db) ["rooms", rid, "timeLimit"] ≠ none := by
  by_cases hc : ∃ room user, op = .createAndJoinRoom rid room user
  · obtain ⟨room, user, rfl⟩ := hc
    simp only [RoomOp.rid] at hk
    rw [apply_create, leafAt_create_field db hk room user rid ["timeLimit"]]
    simp [roomValue, Room.toDict]
  · have hafter : AfterCreate rid op := ⟨hk, fun room user he => hc ⟨room, user, he⟩⟩
    rwa [leafAt_fixed_apply hafter db (by decide)]

theorem limit_foldl {ops : List RoomOp} (hk : ∀ op ∈ ops, IsKey op.rid) {db : δ} {rid : String}
    (h : leafAt db ["rooms", rid, "timeLimit"] ≠ none) :
    leafAt (ops.foldl RoomOp.apply db) ["rooms", rid, "timeLimit"] ≠ none := by
  induction ops generalizing db with
  | nil => exact h
  | cons op ops ih =>
    exact ih (fun o ho => hk o (List.mem_cons_of_mem _ ho))
      (limit_apply (hk op List.mem_cons_self) h)

variable {ι : Type*} {D : Deployment ι}

/-- Whatever is pending, a room with a time limit is shown with one. -/
theorem view_limit {s : System ι δ} {x : ι} (hfresh : Fresh D s) {i : ℕ} {overlaid : Bool}
    {db d : δ}
    (hv : (s.clients x).view (s.env D x) i overlaid = some db) (hd : s.history[i]? = some d)
    {rid : String} (h : leafAt d ["rooms", rid, "timeLimit"] ≠ none) :
    leafAt db ["rooms", rid, "timeLimit"] ≠ none := by
  obtain ⟨d', hd', hdb⟩ := Option.map_eq_some_iff.mp hv
  obtain rfl : d' = d := Option.some.inj (hd'.symm.trans hd)
  cases overlaid with
  | false => rwa [← show d' = db from hdb]
  | true =>
    rw [← show (s.clients x).overlay (D.user x) d' = db from hdb,
      leafAt_overlay_field hfresh _ _ (by decide)]
    refine limit_foldl (fun op hop => ?_) h
    obtain ⟨w, hw, rfl⟩ := mem_pending (hfresh.writes x) hop
    exact hw.1

/-- A teardown clears the place of no room, and so of no observer that reads one. -/
theorem sheltered_of_at {s : System ι δ} {x : ι} {o : Observer} {rid : String}
    (hfresh : Fresh D s) (hkey : IsKey rid) (href : o.ref = roomRef rid) :
    (s.clients x).Sheltered o := by
  intro r hr
  obtain ⟨hk, -⟩ := (hfresh.entered x).current r hr
  rw [href, roomRef_key hkey, roomUsersRef_key hk]
  simp

variable [DecidableEq ι] {evs : List (Event ι)}

/-- In every state of the server a room that is there has its time limit. -/
theorem run_limit (hscans : D.Along (δ := δ) ScansRooms evs) {d : δ}
    (hd : d ∈ (D.run evs : System ι δ).history) {rid : String} (hdata : HasData d ["rooms", rid]) :
    leafAt d ["rooms", rid, "timeLimit"] ≠ none := by
  have hall := (run_db D (P := fun d : δ => Exclusive d ∧ Schema d) ⟨exclusive_empty, ?_⟩ ?_).2 d hd
  · obtain ⟨q, hq⟩ := (hall.2 rid hdata).fields "timeLimit" (by decide)
    rw [hq]
    simp
  · intro r hr
    obtain ⟨q, l, hl⟩ := hr
    rw [leafAt_empty] at hl
    cases hl
  · intro pre e op hpre hop h
    obtain ⟨post, rfl⟩ := hpre
    have hfits := run_writeFits (Along.append.mp hscans).1
    exact ⟨exclusive_apply h.1 op, (schema_apply_iff h.2 h.1 (applied_create_key D pre hop)).mpr
      ((Along.concat.mp hfits).2 op hop)⟩

/-- A room that the client has entered is shown with data. -/
theorem info_of_entered (hscans : D.Along (δ := δ) ScansRooms evs) {x : ι} {rid : String} {n : ℕ}
    (hsettled : Settled (D.run evs : System ι δ) rid n) {i : ℕ} (hi : n ≤ i) {overlaid : Bool}
    {db : δ}
    (hv : ((D.run evs : System ι δ).clients x).view ((D.run evs : System ι δ).env D x) i overlaid =
      some db) : (getInfoForRID db (roomRef rid)).isSome = true := by
  obtain ⟨d, hd, -⟩ := Option.map_eq_some_iff.mp hv
  have hdata : HasData d ["rooms", rid] := hsettled.2.2 i d hi hd
  have hlimit := view_limit (run_fresh D hscans) hv hd
    (run_limit hscans (List.mem_of_getElem? hd) hdata)
  obtain ⟨l, hl⟩ := Option.ne_none_iff_exists'.mp hlimit
  have hvalue : hasValue db (roomRef rid) = true := by
    rw [roomRef_key hsettled.1]
    exact hasValue_iff.mpr ⟨["timeLimit"], l, hl⟩
  rw [getInfoForRID, if_pos hvalue]
  rfl

/-! ## The label waits for what comes -/

/-- The stats controller of each client waits for as many labels as are on their way. -/
theorem run_labelling (hscans : D.Along (δ := δ) ScansRooms evs)
    (x : ι) (horder : D.Along (δ := δ) (InOrderAt x) evs) :
    ((D.run evs : System ι δ).clients x).Labelling := by
  induction evs using List.reverseRecOn with
  | nil => exact Client.labelling_launch
  | append_singleton evs e ih =>
    obtain ⟨hscans', -⟩ := Along.concat.mp hscans
    obtain ⟨horder', hord⟩ := Along.concat.mp horder
    have hlab := ih hscans' horder'
    have hfresh := run_fresh D hscans'
    rw [run_concat]
    rcases clients_step D (D.run evs : System ι δ) e x with ⟨-, hsame⟩ | ⟨e', rfl, hown⟩
    · rw [hsame]
      exact hlab
    · rw [hown]
      -- the observer of a label reads a room that its client has entered
      have hroom : ∀ o ∈ ((D.run evs : System ι δ).clients x).observers, o.block = .setUpLabel →
          ∃ rid, o.ref = roomRef rid ∧ Settled (D.run evs : System ι δ) rid
            ((D.run evs : System ι δ).clients x).seen := by
        intro o ho hb
        obtain ⟨rid, hat, hsettled⟩ := (hfresh.entered x).observers o ho
        rw [Observer.At, hb] at hat
        exact ⟨rid, hat, hsettled⟩
      refine hlab.step (run_nav D evs x).1 (run_hasRoom D evs x) _ e' ?_ ?_
      · intro o ho hb
        obtain ⟨rid, href, hsettled⟩ := hroom o ho hb
        exact sheltered_of_at hfresh hsettled.1 href
      · intro o db hd hb
        obtain ⟨k, i, overlaid, rfl, hk, hv⟩ := hd
        obtain ⟨rid, href, hsettled⟩ := hroom o (List.mem_of_getElem? hk) hb
        rw [href]
        exact info_of_entered hscans' hsettled (hord _ rfl rfl) hv

end

/-! ## From the stats controller to the results -/

namespace Client
section
variable {δ : Type*} [RealtimeDatabase δ] {c : Client}

theorem tick_front {vc : RoomStatsViewController} (hvc : c.stats = some vc)
    (ht : vc.timer = .scheduled) {now : ℚ} (hlate : vc.timeLeft now < 1)
    (hfront : c.screens.head? = some .stats) :
    (c.updateTimer now).screens.head? = some .results := by
  simp only [updateTimer, hvc]
  rw [if_pos ⟨ht, hlate⟩, screens_performToResults, if_pos hfront]
  rfl

/-- A running timer runs on to the same deadline, until the results. -/
theorem scheduled_step (hnav : c.Nav) (hsent : c.Writes Sent) (hlab : c.Labelling) (env : Env δ)
    {e : ClientEvent} (hl : e ≠ .relaunch) (hfront : c.screens.head? = some .stats)
    {vc : RoomStatsViewController} (hvc : c.stats = some vc) (ht : vc.timer = .scheduled) :
    (c.step env e).client.screens.head? = some .results ∨
      ((c.step env e).client.screens.head? = some .stats ∧
        ∃ vc', (c.step env e).client.stats = some vc' ∧ vc'.timer = .scheduled ∧
          vc'.startTime = vc.startTime ∧ vc'.timeLimit = vc.timeLimit) := by
  rcases stats_stay hnav hsent env hl hfront with hstay | hres
  · have hs := stats_step hnav env e
    rw [hvc] at hs
    generalize hs' : (c.step env e).client.stats = stats' at hs
    have hkept : ∀ {vc' : RoomStatsViewController}, stats' = some vc' → vc'.timer = .scheduled →
        vc'.startTime = vc.startTime → vc'.timeLimit = vc.timeLimit →
        (c.step env e).client.screens.head? = some .stats ∧
          ∃ vc', stats' = some vc' ∧ vc'.timer = .scheduled ∧ vc'.startTime = vc.startTime ∧
            vc'.timeLimit = vc.timeLimit :=
      fun h h1 h2 h3 => ⟨hstay, _, h, h1, h2, h3⟩
    cases hs with
    | same => exact .inr (hkept rfl ht rfl rfl)
    | relaunched he => exact absurd he hl
    | observed => exact .inr (hkept rfl ht rfl rfl)
    | lost => exact .inr (hkept rfl ht rfl rfl)
    | labelled hd hb =>
      -- no observer is left to bring a second label
      obtain ⟨k, i, overlaid, -, hk, -⟩ := hd
      have hno := hlab.no_observer hvc (by rw [ht]; decide) _ (List.mem_of_getElem? hk)
      exact absurd hb hno
    | ticked he _ hlate =>
      subst he
      exact .inl (tick_front hvc ht hlate hfront)
    | backgrounded => exact .inr (hkept rfl ht rfl rfl)
    | locked => exact .inr (hkept rfl ht rfl rfl)
  · exact .inl hres

/-- The label that arrives schedules the timer. -/
theorem scheduled_of_label {env : Env δ} {e : ClientEvent} {o : Observer} {db : δ}
    (hd : Delivers env c e o db) (hb : o.block = .setUpLabel)
    (hinfo : (getInfoForRID db o.ref).isSome = true) (hloaded : c.stats.isSome = true) :
    ∃ vc, (c.step env e).client.stats = some vc ∧ vc.timer = .scheduled := by
  obtain ⟨k, i, overlaid, rfl, hk, hv⟩ := hd
  obtain ⟨vc, hvc⟩ := Option.isSome_iff_exists.mp hloaded
  obtain ⟨info, hget⟩ := Option.isSome_iff_exists.mp hinfo
  obtain ⟨obs, -, heq⟩ := c.deliver_eq k o db
  simp only [step, snapshot, hk, hv, heq, hb, setUpLabelCompletion, hvc, hget]
  exact ⟨_, rfl, rfl⟩

/-- A controller that waits for its label goes on waiting with the observer in place, or
the label arrives. -/
theorem unscheduled_step (hnav : c.Nav) (hsent : c.Writes Sent) (env : Env δ) {e : ClientEvent}
    (hl : e ≠ .relaunch) (hfront : c.screens.head? = some .stats) {vc : RoomStatsViewController}
    (hvc : c.stats = some vc) (ht : vc.timer = .unscheduled) {o : Observer} (ho : o ∈ c.observers)
    (hb : o.block = .setUpLabel) (hs : c.Sheltered o)
    (hinfo : ∀ db, Delivers env c e o db → (getInfoForRID db o.ref).isSome = true) :
    (c.step env e).client.screens.head? = some .results ∨
      ((c.step env e).client.screens.head? = some .stats ∧
        ∃ vc', (c.step env e).client.stats = some vc' ∧ (vc'.timer = .scheduled ∨
          vc'.timer = .unscheduled ∧ o ∈ (c.step env e).client.observers)) := by
  have hloaded : c.stats.isSome = true := by rw [hvc]; rfl
  rcases stats_stay hnav hsent env hl hfront with hstay | hres
  · refine .inr ⟨hstay, ?_⟩
    rcases observer_step env hl ho (fun _ => hs) with ho' | ⟨db, hd, -⟩
    · have hstep := stats_step hnav env e
      rw [hvc] at hstep
      generalize (c.step env e).client.stats = stats' at hstep
      cases hstep with
      | same => exact ⟨_, rfl, .inr ⟨ht, ho'⟩⟩
      | relaunched he => exact absurd he hl
      | observed => exact ⟨_, rfl, .inr ⟨ht, ho'⟩⟩
      | lost => exact ⟨_, rfl, .inr ⟨ht, ho'⟩⟩
      | labelled => exact ⟨_, rfl, .inl rfl⟩
      | ticked _ hsched => rw [hsched] at ht; cases ht
      | backgrounded => exact ⟨_, rfl, .inr ⟨ht, ho'⟩⟩
      | locked => exact ⟨_, rfl, .inr ⟨ht, ho'⟩⟩
    · obtain ⟨vc', hvc', ht'⟩ := scheduled_of_label hd hb (hinfo db hd) hloaded
      exact ⟨vc', hvc', .inl ht'⟩
  · exact .inl hres

/-- A timer that has run out has opened the results. -/
def TimedOut (c : Client) : Prop :=
  ∀ vc, c.stats = some vc → vc.timer = .invalidated → c.screens.head? = some .results

theorem TimedOut.step (h : c.TimedOut) (hnav : c.Nav) (hsent : c.Writes Sent) (env : Env δ)
    (e : ClientEvent) : (c.step env e).client.TimedOut := by
  intro vc' hvc' ht'
  have hs := stats_step hnav env e
  rw [hvc'] at hs
  generalize hst : c.stats = stats at hs
  have hold : ∀ {vc : RoomStatsViewController}, stats = some vc → vc.timer = .invalidated →
      e ≠ .relaunch → (c.step env e).client.screens.head? = some .results := fun hvc ht hl =>
    results_stay hnav hsent env hl (h _ (hst.trans hvc) ht)
  cases hs with
  | same =>
    refine hold rfl ht' ?_
    intro he
    subst he
    cases hvc'
  | loaded => cases ht'
  | observed he => exact hold rfl ht' (by rw [he]; simp)
  | lost hd => exact hold rfl ht' (by obtain ⟨k, i, ov, he, -⟩ := hd; rw [he]; simp)
  | labelled => cases ht'
  | ticked he hsched hlate =>
    subst he
    have hmem : Screen.stats ∈ c.screens := hnav.stats_iff.mpr (by rw [hst]; rfl)
    by_cases hfront : c.screens.head? = some .stats
    · exact tick_front hst hsched hlate hfront
    · -- the results are there already
      refine results_stay hnav hsent env (by simp) ?_
      have hshape := hnav.shape
      generalize c.screens = l at hmem hfront hshape
      cases hshape with
      | base hb => exact absurd hmem hb.no_stats
      | lobby id hb => simp [hb.no_stats] at hmem
      | stats id hb => exact absurd rfl hfront
      | results id hb => rfl
  | backgrounded he => exact hold rfl ht' (by rw [he]; simp)
  | locked he => exact hold rfl ht' (by rw [he]; simp)

end
end Client

/-! ## Moments of an endless run -/

section
variable {ι : Type*} [DecidableEq ι]

/-- The system at the moment `n` of an endless run. -/
def Deployment.moment (D : Deployment ι) (δ : Type*) [RealtimeDatabase δ] (inputs : ℕ → Event ι)
    (n : ℕ) : System ι δ := D.run (upTo inputs n)

/-- The client has ended its game: the results are in front. -/
def Client.Ended (c : Client) : Prop := c.screens.head? = some .results

instance (c : Client) : Decidable c.Ended := inferInstanceAs (Decidable (_ = _))

variable {δ : Type*} [RealtimeDatabase δ]

/-- At the moment `n` the observer `o` of `x` is shown the server's state number `j` or
a later one. -/
def Shows (D : Deployment ι) (δ : Type*) [RealtimeDatabase δ] (x : ι) (inputs : ℕ → Event ι)
    (o : Observer) (j n : ℕ) : Prop :=
  ∃ k i overlaid, inputs n = .client x (.snapshot k i overlaid) ∧
    ((D.moment δ inputs n).clients x).observers[k]? = some o ∧
    j ≤ i ∧ i < (D.moment δ inputs n).history.length

/-- The phone `x` is served until its results: every callback that is due comes, the
timer ticks, and an observer that stays is shown a state as new as the server's is now. -/
structure Served (D : Deployment ι) (δ : Type*) [RealtimeDatabase δ] (x : ι)
    (inputs : ℕ → Event ι) : Prop where
  appears : ∀ n, ∃ m, n ≤ m ∧
    (((D.moment δ inputs m).clients x).Ended ∨ inputs m = .client x .appear)
  ticks : ∀ n, ∃ m, n ≤ m ∧
    (((D.moment δ inputs m).clients x).Ended ∨ inputs m = .client x .updateTimer)
  shows : ∀ n, ∀ o ∈ ((D.moment δ inputs n).clients x).observers, ∃ m, n ≤ m ∧
    (((D.moment δ inputs m).clients x).Ended ∨
      o ∉ ((D.moment δ inputs m).clients x).observers ∨
      Shows D δ x inputs o ((D.moment δ inputs n).history.length - 1) m)

variable {D : Deployment ι} {inputs : ℕ → Event ι}

theorem moment_succ (n : ℕ) :
    D.moment δ inputs (n + 1) = (D.moment δ inputs n).step D (inputs n) := by
  unfold Deployment.moment
  rw [upTo_succ, run_concat]

/-- From one moment to the next a client takes a step of its own or stays as it is. -/
theorem client_succ (inputs : ℕ → Event ι) (x : ι) (n : ℕ) :
    (D.moment δ inputs (n + 1)).clients x = (D.moment δ inputs n).clients x ∨
      ∃ e, inputs n = .client x e ∧ (D.moment δ inputs (n + 1)).clients x =
        (((D.moment δ inputs n).clients x).step ((D.moment δ inputs n).env D x) e).client := by
  rw [moment_succ]
  rcases clients_step D (D.moment δ inputs n) (inputs n) x with ⟨-, hsame⟩ | ⟨e, he, hown⟩
  · exact .inl hsame
  · exact .inr ⟨e, he, hown⟩

theorem now_step_le (s : System ι δ) (e : Event ι) : s.now ≤ (s.step D e).now := by
  cases e with
  | clock t => exact le_max_left _ _
  | client c e => exact (step_client_now D s c e).ge

theorem moment_now_mono {n m : ℕ} (h : n ≤ m) :
    (D.moment δ inputs n).now ≤ (D.moment δ inputs m).now := by
  induction m, h using Nat.le_induction with
  | base => exact le_rfl
  | succ m _ ih =>
    rw [moment_succ]
    exact ih.trans (now_step_le _ _)

/-- The server's states stay where they are. -/
theorem moment_history {n m j : ℕ} (h : n ≤ m) {d : δ}
    (hd : (D.moment δ inputs n).history[j]? = some d) :
    (D.moment δ inputs m).history[j]? = some d := by
  induction m, h using Nat.le_induction with
  | base => exact hd
  | succ m _ ih =>
    rw [moment_succ]
    exact getElem?_history_step D _ ih

theorem moment_nav (x : ι) (n : ℕ) : ((D.moment δ inputs n).clients x).Nav :=
  (run_nav D _ x).1

theorem moment_sent (x : ι) (n : ℕ) : ((D.moment δ inputs n).clients x).Writes Client.Sent :=
  (run_nav D _ x).2

theorem moment_timedOut (x : ι) (n : ℕ) : ((D.moment δ inputs n).clients x).TimedOut := by
  refine (client_invariant D
    (P := fun c => (c.Nav ∧ c.Writes Client.Sent) ∧ c.TimedOut) ?_ ?_ _ x).2
  · refine ⟨⟨Client.nav_launch, ?_⟩, fun vc h => (by cases h)⟩
    exact ⟨fun _ h => (List.not_mem_nil h).elim, fun _ h => (List.not_mem_nil h).elim⟩
  · intro c env e h
    exact ⟨⟨h.1.1.step h.1.2 env e, h.1.2.step env e fun _ hw => Client.sent_of_emits hw⟩,
      h.2.step h.1.1 h.1.2 env e⟩

omit [DecidableEq ι] in
/-- A state of the server that a moment has can be shown. -/
theorem view_of_lt {s : System ι δ} {x : ι} {i : ℕ} (h : i < s.history.length) (overlaid : Bool) :
    ∃ db, (s.clients x).view (s.env D x) i overlaid = some db := by
  unfold Client.view System.env
  simp only [List.getElem?_eq_getElem h, Option.map_some]
  exact ⟨_, rfl⟩

/-! ## A finite run, and then time passes -/

/-- The events of a finite run, then nothing but the clock. -/
def thenWaits (run : List (Event ι)) : ℕ → Event ι := continued run fun n => .clock n

variable {run : List (Event ι)} {x : ι}

theorem along_thenWaits {P : System ι δ → Event ι → Prop} (h : D.Along P run)
    (hclock : ∀ s t, P s (.clock t)) (n : ℕ) : D.Along P (upTo (thenWaits run) n) :=
  along_continued h (fun _ _ => hclock _ _) n

theorem moment_thenWaits {n : ℕ} (h : n ≤ run.length) :
    D.moment δ (thenWaits run) n = D.run (run.take n) := by
  rw [Deployment.moment, thenWaits, upTo_continued _ h]

/-- While a run waits only the clock goes on. -/
theorem still_thenWaits {n : ℕ} (h : run.length ≤ n) :
    (D.moment δ (thenWaits run) n).clients = (D.run run : System ι δ).clients ∧
      (D.moment δ (thenWaits run) n).db = (D.run run : System ι δ).db := by
  induction n, h using Nat.le_induction with
  | base =>
    rw [moment_thenWaits le_rfl, List.take_length]
    exact ⟨rfl, rfl⟩
  | succ n hn ih =>
    rw [moment_succ, thenWaits, continued_of_le _ hn]
    exact ih

omit [DecidableEq ι] in
/-- What the run does not do is never done. -/
theorem thenWaits_ne {e : ClientEvent} (h : Event.client x e ∉ run) (n : ℕ) :
    thenWaits run n ≠ .client x e := by
  rcases Nat.lt_or_ge n run.length with hn | hn
  · rw [thenWaits, continued, List.getElem?_eq_getElem hn, Option.getD_some]
    exact fun he => h (he ▸ List.getElem_mem hn)
  · rw [thenWaits, continued_of_le _ hn]
    simp

theorem clock_thenWaits (D : Deployment ι) (run : List (Event ι)) (t : ℚ) :
    ∃ n, t ≤ (D.moment δ (thenWaits run) n).now := by
  obtain ⟨k, hk⟩ := exists_nat_ge t
  refine ⟨max k run.length + 1, ?_⟩
  rw [moment_succ, thenWaits, continued_of_le _ (le_max_right _ _)]
  refine le_trans ?_ (le_max_right _ _)
  exact hk.trans (by exact_mod_cast le_max_left k run.length)

/-- A phone that has its results in time is served. -/
theorem served_thenWaits (h : ((D.run run : System ι δ).clients x).Ended) :
    Served D δ x (thenWaits run) := by
  have hend : ∀ n, ∃ m, n ≤ m ∧ ((D.moment δ (thenWaits run) m).clients x).Ended := fun n =>
    ⟨max n run.length, le_max_left _ _, by rw [(still_thenWaits (le_max_right _ _)).1]; exact h⟩
  refine ⟨fun n => ?_, fun n => ?_, fun n o _ => ?_⟩
  · obtain ⟨m, hm, he⟩ := hend n
    exact ⟨m, hm, .inl he⟩
  · obtain ⟨m, hm, he⟩ := hend n
    exact ⟨m, hm, .inl he⟩
  · obtain ⟨m, hm, he⟩ := hend n
    exact ⟨m, hm, .inl he⟩

/-! ## The deadline comes -/

variable {start : ℕ}

/-- The results, once there, stay. -/
theorem ended_stays (hstay : ∀ n, start ≤ n → inputs n ≠ .client x .relaunch) {n : ℕ}
    (hn : start ≤ n) (h : ((D.moment δ inputs n).clients x).Ended) :
    ((D.moment δ inputs (n + 1)).clients x).Ended := by
  rcases client_succ (D := D) (δ := δ) inputs x n with hsame | ⟨e, he, hown⟩
  · rw [hsame]
    exact h
  · rw [hown]
    refine Client.results_stay (moment_nav x n) (moment_sent x n) _ ?_ h
    intro hl
    exact hstay n hn (hl ▸ he)

/-- The timer runs to the deadline `startTime + timeLimit`, with the controller in front. -/
def Running (startTime timeLimit : Option ℚ) (c : Client) : Prop :=
  c.screens.head? = some .stats ∧ ∃ vc, c.stats = some vc ∧ vc.timer = .scheduled ∧
    vc.startTime = startTime ∧ vc.timeLimit = timeLimit

theorem running_leadsTo (hscans : ∀ n, D.Along (δ := δ) ScansRooms (upTo inputs n))
    (horder : ∀ n, D.Along (δ := δ) (InOrderAt x) (upTo inputs n))
    (hclock : ∀ t, ∃ n, t ≤ (D.moment δ inputs n).now) (hserved : Served D δ x inputs)
    (hstay : ∀ n, start ≤ n → inputs n ≠ .client x .relaunch) (startTime timeLimit : Option ℚ) :
    LeadsTo (fun n => start ≤ n ∧ Running startTime timeLimit ((D.moment δ inputs n).clients x))
      fun n => ((D.moment δ inputs n).clients x).Ended := by
  refine leadsTo_of_helpful (H := fun n => inputs n = .client x .updateTimer ∧
    startTime.getD 0 + timeLimit.getD 0 ≤ (D.moment δ inputs n).now) ?_ ?_ ?_
  · intro n hn
    obtain ⟨hstart, hfront, vc, hvc, ht, hst, hlim⟩ := hn
    rcases client_succ (D := D) (δ := δ) inputs x n with hsame | ⟨e, he, hown⟩
    · rw [hsame]
      exact .inl ⟨by omega, hfront, vc, hvc, ht, hst, hlim⟩
    · rw [hown]
      rcases Client.scheduled_step (moment_nav x n) (moment_sent x n)
        (run_labelling (hscans n) x (horder n)) ((D.moment δ inputs n).env D x)
        (fun hl => hstay n hstart (hl ▸ he)) hfront hvc ht with
        hres | ⟨hfront', vc', hvc', ht', hst', hlim'⟩
      · exact .inr hres
      · exact .inl ⟨by omega, hfront', vc', hvc', ht', hst'.trans hst, hlim'.trans hlim⟩
  · intro n _
    obtain ⟨k, hk⟩ := hclock (startTime.getD 0 + timeLimit.getD 0)
    obtain ⟨m, hm, hcase⟩ := hserved.ticks (max n k)
    refine ⟨m, (le_max_left _ _).trans hm, hcase.imp_right fun htick => ⟨htick, ?_⟩⟩
    exact hk.trans (moment_now_mono ((le_max_right _ _).trans hm))
  · intro n hn hhelp
    obtain ⟨-, hfront, vc, hvc, ht, rfl, rfl⟩ := hn
    obtain ⟨htick, hlate⟩ := hhelp
    rw [moment_succ, htick, step_client_self]
    refine Client.tick_front hvc ht ?_ hfront
    rw [RoomStatsViewController.timeLeft, sub_lt_iff_lt_add]
    exact hlate.trans_lt (lt_add_of_pos_left _ one_pos)

/-- The controller in front waits for its label, which `o` is to bring. -/
def Waiting (o : Observer) (c : Client) : Prop :=
  c.screens.head? = some .stats ∧ (∃ vc, c.stats = some vc ∧ vc.timer = .unscheduled) ∧
    o ∈ c.observers ∧ o.block = .setUpLabel

/-- The label comes. -/
theorem waiting_leadsTo (hscans : ∀ n, D.Along (δ := δ) ScansRooms (upTo inputs n))
    (horder : ∀ n, D.Along (δ := δ) (InOrderAt x) (upTo inputs n)) (hserved : Served D δ x inputs)
    (hstay : ∀ n, start ≤ n → inputs n ≠ .client x .relaunch) (o : Observer) :
    LeadsTo (fun n => start ≤ n ∧ Waiting o ((D.moment δ inputs n).clients x))
      fun n => ((D.moment δ inputs n).clients x).Ended ∨ (start ≤ n ∧
        ∃ startTime timeLimit, Running startTime timeLimit ((D.moment δ inputs n).clients x)) := by
  -- what the observer is shown has the room's info
  have hinfo : ∀ n, o ∈ ((D.moment δ inputs n).clients x).observers → o.block = .setUpLabel →
      ∃ rid, o.ref = roomRef rid ∧ Settled (D.moment δ inputs n) rid
        ((D.moment δ inputs n).clients x).seen := by
    intro n ho hb
    obtain ⟨rid, hat, hsettled⟩ := ((run_fresh D (hscans n)).entered x).observers o ho
    rw [Observer.At, hb] at hat
    exact ⟨rid, hat, hsettled⟩
  have hget : ∀ n e db, o ∈ ((D.moment δ inputs n).clients x).observers → o.block = .setUpLabel →
      inputs n = .client x e →
      Client.Delivers ((D.moment δ inputs n).env D x) ((D.moment δ inputs n).clients x) e o db →
      (getInfoForRID db o.ref).isSome = true := by
    intro n e db ho hb he hd
    obtain ⟨rid, href, hsettled⟩ := hinfo n ho hb
    obtain ⟨k, i, overlaid, rfl, -, hv⟩ := hd
    rw [href]
    exact info_of_entered (hscans n) hsettled (along_upTo.mp horder n (x, i) (by rw [he]; rfl) rfl)
      hv
  refine leadsTo_of_helpful (H := fun n =>
    o ∉ ((D.moment δ inputs n).clients x).observers ∨ Shows D δ x inputs o 0 n) ?_ ?_ ?_
  · intro n hn
    obtain ⟨hstart, hfront, ⟨vc, hvc, ht⟩, ho, hb⟩ := hn
    obtain ⟨rid, href, hsettled⟩ := hinfo n ho hb
    rcases client_succ (D := D) (δ := δ) inputs x n with hsame | ⟨e, he, hown⟩
    · rw [hsame]
      exact .inl ⟨by omega, hfront, ⟨vc, hvc, ht⟩, ho, hb⟩
    · rw [hown]
      rcases Client.unscheduled_step (moment_nav x n) (moment_sent x n) _
        (fun hl => hstay n hstart (hl ▸ he)) hfront hvc ht ho hb
        (sheltered_of_at (run_fresh D (hscans n)) hsettled.1 href)
        (fun db hd => hget n e db ho hb he hd) with
        hres | ⟨hfront', vc', hvc', ht' | ⟨ht', ho'⟩⟩
      · exact .inr (.inl hres)
      · exact .inr (.inr ⟨by omega, _, _, hfront', vc', hvc', ht', rfl, rfl⟩)
      · exact .inl ⟨by omega, hfront', ⟨vc', hvc', ht'⟩, ho', hb⟩
  · intro n hn
    obtain ⟨m, hnm, hcase⟩ := hserved.shows n o hn.2.2.2.1
    refine ⟨m, hnm, ?_⟩
    rcases hcase with hend | hgone | ⟨k, i, overlaid, he, hk, -, hi⟩
    · exact .inl (.inl hend)
    · exact .inr (.inl hgone)
    · exact .inr (.inr ⟨k, i, overlaid, he, hk, Nat.zero_le i, hi⟩)
  · intro n hn hhelp
    obtain ⟨hstart, hfront, ⟨vc, hvc, ht⟩, ho, hb⟩ := hn
    obtain ⟨k, i, overlaid, he, hk, -, hi⟩ := hhelp.resolve_left fun hgone => hgone ho
    obtain ⟨db, hv⟩ := view_of_lt (D := D) (x := x) hi overlaid
    have hd : Client.Delivers ((D.moment δ inputs n).env D x) ((D.moment δ inputs n).clients x)
      (.snapshot k i overlaid) o db := ⟨k, i, overlaid, rfl, hk, hv⟩
    obtain ⟨vc', hvc', ht'⟩ := Client.scheduled_of_label hd hb (hget n _ db ho hb he hd)
      (by rw [hvc]; rfl)
    rw [moment_succ, he, step_client_self]
    rcases Client.stats_stay (moment_nav x n) (moment_sent x n) ((D.moment δ inputs n).env D x)
      (e := .snapshot k i overlaid) (by simp) hfront with hfront' | hres
    · exact .inr ⟨by omega, _, _, hfront', vc', hvc', ht', rfl, rfl⟩
    · exact .inl hres

/-- On a phone that is served and not relaunched, in a run where time passes, the stats
controller in front leads to the results. -/
theorem stats_leadsTo (hscans : ∀ n, D.Along (δ := δ) ScansRooms (upTo inputs n))
    (horder : ∀ n, D.Along (δ := δ) (InOrderAt x) (upTo inputs n))
    (hclock : ∀ t, ∃ n, t ≤ (D.moment δ inputs n).now) (hserved : Served D δ x inputs)
    (hstay : ∀ n, start ≤ n → inputs n ≠ .client x .relaunch) :
    LeadsTo (fun n => start ≤ n ∧ ((D.moment δ inputs n).clients x).screens.head? = some .stats)
      fun n => ((D.moment δ inputs n).clients x).Ended := by
  have hrunning : LeadsTo (fun n => start ≤ n ∧ ∃ startTime timeLimit,
      Running startTime timeLimit ((D.moment δ inputs n).clients x))
      fun n => ((D.moment δ inputs n).clients x).Ended := by
    intro n hn
    obtain ⟨hstart, startTime, timeLimit, hrun⟩ := hn
    exact running_leadsTo hscans horder hclock hserved hstay startTime timeLimit n ⟨hstart, hrun⟩
  intro n hn
  obtain ⟨hstart, hfront⟩ := hn
  have hnav : ((D.moment δ inputs n).clients x).Nav := moment_nav x n
  have hloaded : ((D.moment δ inputs n).clients x).stats.isSome = true :=
    hnav.stats_iff.mp (List.mem_of_mem_head? hfront)
  obtain ⟨vc, hvc⟩ := Option.isSome_iff_exists.mp hloaded
  cases ht : vc.timer with
  | unscheduled =>
    obtain ⟨o, ho, hb, -⟩ := (run_labelling (hscans n) x (horder n)).exists_observer hvc ht
    exact ((waiting_leadsTo hscans horder hserved hstay o).trans
      (LeadsTo.or (.of_imp fun _ h => h) hrunning)) n ⟨hstart, hfront, ⟨vc, hvc, ht⟩, ho, hb⟩
  | scheduled => exact hrunning n ⟨hstart, _, _, hfront, vc, hvc, ht, rfl, rfl⟩
  | invalidated => exact ⟨n, le_rfl, moment_timedOut x n vc hvc ht⟩

/-- **A game that has begun ends.** The stats controller in front, on a phone that is
served and not relaunched, gives way to the results for good, as time passes. -/
theorem results_after_stats (hscans : ∀ n, D.Along (δ := δ) ScansRooms (upTo inputs n))
    (horder : ∀ n, D.Along (δ := δ) (InOrderAt x) (upTo inputs n))
    (hclock : ∀ t, ∃ n, t ≤ (D.moment δ inputs n).now) (hserved : Served D δ x inputs)
    (hstay : ∀ n, start ≤ n → inputs n ≠ .client x .relaunch)
    (hstats : ((D.moment δ inputs start).clients x).screens.head? = some .stats) :
    ∀ᶠ n in Filter.atTop, ((D.moment δ inputs n).clients x).Ended := by
  obtain ⟨m, hm, hend⟩ := stats_leadsTo hscans horder hclock hserved hstay start ⟨le_rfl, hstats⟩
  exact eventually_of_stable hend fun n hn => ended_stays hstay (hm.trans hn)

end

/-- Ann starts the game of the room `-`, both phones open it, and it runs out. -/
def wholeGame : List (Event Bool) :=
  bothInLobby ++ [.client false .startRoomTUI, .client false (.deliverWrite true),
    .client false .ack, .client true (.snapshot 0 3 true), .client true .appear,
    .client false (.snapshot 0 3 true), .client false .appear, .client true (.snapshot 1 3 true),
    .client false (.snapshot 1 3 true), .clock 1060, .client false .updateTimer,
    .client true .updateTimer, .client false (.deliverWrite true)]

/-- Bob's game, once open, ends. -/
theorem results_after_stats_bob :
    ∀ᶠ n in Filter.atTop,
      ((twoPhones.moment LeafTree (thenWaits wholeGame) n).clients true).Ended := by
  have hscans : twoPhones.Along (δ := LeafTree) ScansRooms wholeGame := by decide +kernel
  have horder : twoPhones.Along (δ := LeafTree) (InOrderAt true) wholeGame := by decide +kernel
  have hends : ((twoPhones.run wholeGame : System Bool LeafTree).clients true).Ended := by
    decide +kernel
  have hopen :
      ((twoPhones.run (wholeGame.take 15) : System Bool LeafTree).clients true).screens.head? =
      some .stats := by decide +kernel
  rw [← moment_thenWaits (by decide)] at hopen
  exact results_after_stats (along_thenWaits hscans fun _ _ _ h => (by cases h))
    (along_thenWaits horder fun _ _ _ h => (by cases h))
    (clock_thenWaits twoPhones wholeGame) (served_thenWaits hends)
    (fun n _ => thenWaits_ne (by decide +kernel) n) hopen

end Unplug.App
