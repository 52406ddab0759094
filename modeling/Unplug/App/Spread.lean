import Unplug.App.Members

/-! # A loss reaches the others

A stats controller in front is about to listen to the users of its room, or listens. A loss
that the server has of another player is in whatever it is shown, so it ends the game,
with no help of the clock. -/
namespace Unplug.App
open Unplug.Store Unplug.Firebase Unplug.Machine Unplug.Room RealtimeDatabase

namespace Client
section
variable {δ : Type*} [RealtimeDatabase δ] {c : Client}

/-! ## The listener of the stats controller -/

def Listens (c : Client) : Prop := ∃ o ∈ c.observers, o.block = .stats ∧ o.single = false

/-- A stats controller in front is the last screen to appear, or it has and listens. -/
def Hears (c : Client) : Prop := c.screens.head? = some .stats →
  (∃ pre t, c.transitions = pre ++ [t] ∧ t.appears = some .stats) ∨
    c.transitions = [] ∧ c.Listens

/-- The last appearance attaches the listener, an earlier one leaves it to come. -/
theorem hears_appear {pre : List Transition} {t : Transition}
    (ht : c.transitions = pre ++ [t]) (ha : t.appears = some .stats) {rid : String}
    (hrid : c.currentRID = some rid) :
    (∃ pre', pre.length = pre'.length + 1 ∧ c.appear.transitions = pre' ++ [t]) ∨
      c.appear.transitions = [] ∧ c.appear.Listens := by
  cases pre with
  | cons t' pre =>
    left
    rw [transitions_appear ht]
    exact ⟨pre, rfl, rfl⟩
  | nil =>
    right
    refine ⟨transitions_appear ht, ?_⟩
    rcases c.appear_cases with ⟨hn, -⟩ | ⟨t', rest', obs, ht', -, heq⟩
    · rw [hn] at ht
      cases ht
    · rw [ht'] at ht
      cases ht
      rw [heq, ha]
      refine ⟨⟨roomUsersRef rid, .stats, false⟩, ?_, rfl, rfl⟩
      simp [viewWillAppear, statsSetUpListener, hrid]

theorem Listens.step (h : c.Listens) (env : Env δ) {e : ClientEvent} (hl : e ≠ .relaunch)
    (ha : e ≠ .appear) : (c.step env e).client.Listens := by
  obtain ⟨o, ho, hb, hsingle⟩ := h
  rcases observer_step env hl ho (fun he => absurd he ha) with ho' | ⟨db, -, hone⟩
  · exact ⟨o, ho', hb, hsingle⟩
  · rw [hsingle] at hone
    cases hone

theorem Hears.step (h : c.Hears) (hnav : c.Nav) (hroom : c.HasRoom) (env : Env δ)
    (e : ClientEvent) : (c.step env e).client.Hears := by
  intro hfront
  by_cases hl : e = .relaunch
  · subst hl
    cases hfront
  by_cases ha : e = .appear
  · subst ha
    simp only [Client.step] at hfront ⊢
    rw [screens_appear] at hfront
    rcases h hfront with ⟨pre, t, ht, happ⟩ | ⟨hnil, hlis⟩
    · have hs : c.stats.isSome = true := hnav.stats_iff.mp (List.mem_of_mem_head? hfront)
      obtain ⟨rid, hrid⟩ := Option.isSome_iff_exists.mp (hroom.of_stats hnav hs)
      rcases hears_appear ht happ hrid with ⟨pre', -, ht'⟩ | hdone
      · exact .inl ⟨pre', t, ht', happ⟩
      · exact .inr hdone
    · rw [show c.appear = c by unfold appear; rw [hnil]]
      exact .inr ⟨hnil, hlis⟩
  by_cases hback : e = .backTUI
  · subst hback
    simp only [Client.step, backTUI] at hfront ⊢
    split at hfront
    · -- under a room setup there is only the menu
      rename_i n rest hscreens
      have hnil := Shape.of_setup (hscreens ▸ hnav.shape)
      rw [hnil] at hfront
      cases hfront
    · exact h hfront
  rcases presents_step (c := c) env hl ha hback with ⟨htrans, hscreens⟩ | ⟨t, htrans, happ, -⟩
  · rw [hscreens] at hfront
    rw [htrans]
    exact (h hfront).imp_right fun hx => ⟨hx.1, hx.2.step env hl ha⟩
  · exact .inl ⟨_, t, htrans, happ.trans hfront⟩

/-- While the stats controller stays in front nothing is presented. -/
theorem transitions_of_stats (hnav : c.Nav) (hsent : c.Writes Sent) (env : Env δ) {e : ClientEvent}
    (hl : e ≠ .relaunch) (ha : e ≠ .appear) (hfront : c.screens.head? = some .stats)
    (hfront' : (c.step env e).client.screens.head? = some .stats) :
    (c.step env e).client.transitions = c.transitions := by
  by_cases hback : e = .backTUI
  · subst hback
    exact transitions_backTUI
  rcases presents_step (c := c) env hl ha hback with ⟨h, -⟩ | ⟨t, -, -, hne⟩
  · exact h
  · have hscreens := screens_step hnav hsent env e
    generalize (c.step env e).client.screens = screens at hscreens hfront' hne
    cases hscreens with
    | same => exact absurd rfl hne
    | relaunched he => exact absurd he hl
    | setup _ hs => rw [hs] at hfront; cases hfront
    | back he _ => exact absurd he hback
    | dismissed _ hs => rw [hs] at hfront; cases hfront
    | lobby _ hb => exact absurd (List.mem_of_mem_head? hfront) hb.no_stats
    | stats _ _ _ hs => rw [hs] at hfront; cases hfront
    | results _ => cases hfront'

end
end Client

section
variable {ι δ : Type*} [DecidableEq ι] [RealtimeDatabase δ] {D : Deployment ι}
  {evs : List (Event ι)} {x : ι} {rid : String}

theorem run_hears (D : Deployment ι) (evs : List (Event ι)) (x : ι) :
    ((D.run evs : System ι δ).clients x).Hears := by
  induction evs using List.reverseRecOn with
  | nil => exact fun hfront => by cases hfront
  | append_singleton evs e ih =>
    rw [run_concat]
    rcases clients_step D (D.run evs : System ι δ) e x with ⟨-, hsame⟩ | ⟨e', rfl, hown⟩
    · rw [hsame]
      exact ih
    · rw [hown]
      exact ih.step (run_nav D evs x).1 (run_hasRoom D evs x) _ e'

/-! ## The loss of another player is shown -/

/-- The server has a loss of `u` in the room. -/
def HasLost (rid u : String) (d : δ) : Prop := ∃ r, recordsAt d rid = some r ∧ r.Lost u

instance (rid u : String) (d : δ) : Decidable (HasLost rid u d) :=
  decidable_of_iff (∃ e ∈ (recordsAt d rid).bind (·.entry u), e.time ≠ 0) (by
    simp only [HasLost, Record.Lost, Option.mem_def, Option.bind_eq_some_iff]
    constructor
    · rintro ⟨e, ⟨r, hr, he⟩, hne⟩
      exact ⟨r, hr, e, he, hne⟩
    · rintro ⟨r, hr, e, he, hne⟩
      exact ⟨e, ⟨r, hr, he⟩, hne⟩)

omit [DecidableEq ι] in
/-- Writes of others leave the subtree of a user alone. -/
theorem userSubtree_foldl {u : String} (hk : IsKey rid) {ops : List RoomOp}
    (hafter : ∀ op ∈ ops, AfterCreate rid op) (hown : ∀ op ∈ ops, own rid u op = false) (d : δ) :
    userSubtree rid u (ops.foldl RoomOp.apply d) = userSubtree rid u d := by
  induction ops generalizing d with
  | nil => rfl
  | cons op ops ih =>
    rw [List.foldl_cons, ih (fun o ho => hafter o (List.mem_cons_of_mem _ ho))
      fun o ho => hown o (List.mem_cons_of_mem _ ho)]
    exact userSubtree_frame hk (hafter op List.mem_cons_self) (hown op List.mem_cons_self) d

/-- Nothing that a phone has pending hides another player. -/
theorem view_other (hscans : D.Along (δ := δ) ScansRooms evs)
    (hr : ((D.run evs : System ι δ).clients x).currentRID = some rid) {i : ℕ} {overlaid : Bool}
    {db d : δ} (hv : ((D.run evs : System ι δ).clients x).view ((D.run evs : System ι δ).env D x) i
      overlaid = some db) (hd : (D.run evs : System ι δ).history[i]? = some d) {u : String}
    (hu : u ≠ (D.user x).uid) (q : Path) :
    leafAt db ("rooms" :: rid :: "users" :: u :: q) =
      leafAt d ("rooms" :: rid :: "users" :: u :: q) := by
  have hscans' := hscans.mono fun _ _ h => ScansRooms.scansKeys h
  obtain ⟨hent, hw⟩ := run_keys D hscans' x
  have hk : IsKey rid := hent.current rid hr
  obtain ⟨d', hd', rfl⟩ := Option.map_eq_some_iff.mp hv
  obtain rfl : d' = d := Option.some.inj (hd'.symm.trans hd)
  cases overlaid with
  | false => rfl
  | true =>
    refine (leafAt_optimistic hent.transactions _ _ _ (.inl hu)).trans ?_
    have hafter := pending_afterCreate (run_fresh D hscans) (run_inTurn D hscans x) hr
    have hown : ∀ op ∈ ((D.run evs : System ι δ).clients x).pending, own rid u op = false := by
      intro op hop
      obtain ⟨w, ⟨-, huser⟩, rfl⟩ := mem_pending hw hop
      by_contra h
      rcases own_cases (Bool.eq_true_of_not_eq_false h) with ⟨user, hwop, hx⟩ | ⟨ts, hwop⟩
      · rw [hwop] at huser
        exact hu (huser ▸ hx.symm)
      · rw [hwop] at huser
        exact huser
    have hsub := userSubtree_foldl hk hafter hown d'
    rw [userSubtree_key hk, userSubtree_key hk] at hsub
    exact congrFun hsub q

/-- What a phone in the room is shown has a loser, once another player has lost. -/
theorem loser_of_lost (hscans : D.Along (δ := δ) ScansRooms evs)
    (hnames : ∀ y, (D.user y).name ≠ "")
    (hr : ((D.run evs : System ι δ).clients x).currentRID = some rid) {i : ℕ} {overlaid : Bool}
    {db d : δ} (hv : ((D.run evs : System ι δ).clients x).view ((D.run evs : System ι δ).env D x) i
      overlaid = some db) (hd : (D.run evs : System ι δ).history[i]? = some d)
    (hi : ((D.run evs : System ι δ).clients x).seen ≤ i) {u : String} (hu : u ≠ (D.user x).uid)
    (hlost : HasLost rid u d) : loserName db (roomUsersRef rid) ≠ "" := by
  have hview := view_members hscans hr hv hd (enrolled_at hscans hr hi hd)
  obtain ⟨r, hrec, e, he, hne⟩ := hlost
  obtain ⟨hk, -, hentry⟩ := recordsAt_eq_some.mp hrec
  have htime := numAt_eq_some.mp (entryAt_eq_some ((hentry u).trans he)).2
  rw [roomUserTimeRef_key hk] at htime
  have hmarked : marked db (roomUsersRef rid) u = true := by
    simp only [marked, roomUsersRef_key hk, List.cons_append, List.nil_append,
      view_other hscans hr hv hd hu, htime]
    simpa using hne
  have hchild : u ∈ children db (roomUsersRef rid) := by
    rw [mem_children_iff, roomUsersRef_key hk]
    exact ⟨["time"], _, (view_other hscans hr hv hd hu ["time"]).trans htime⟩
  rw [loserName_eq]
  cases hlast : lastMarked db (roomUsersRef rid) with
  | none =>
    have hmem : u ∈ (children db (roomUsersRef rid)).filter (marked db (roomUsersRef rid)) :=
      List.mem_filter.mpr ⟨hchild, hmarked⟩
    rw [List.getLast?_eq_none_iff.mp hlast] at hmem
    cases hmem
  | some v =>
    -- the last one marked is a member, and members have names
    obtain ⟨name, hname⟩ := hview.2 v (lastMarked_mem hlast).1
    obtain ⟨y, -, hy⟩ := player_of_has hscans (List.mem_of_getElem? hd) hname
    simp only [Option.map_some, Option.getD_some, nameOf, (hview.1 v name).mpr hname, ← hy]
    exact hnames y

/-! ## The game ends -/

variable {inputs : ℕ → Event ι} {start : ℕ}

/-- The client has the stats controller in front, and the room is its current one. -/
def InGame (rid : String) (c : Client) : Prop :=
  c.screens.head? = some .stats ∧ c.currentRID = some rid

instance (rid : String) (c : Client) : Decidable (InGame rid c) :=
  inferInstanceAs (Decidable (_ ∧ _))

theorem inGame_succ (hsteady : ∀ n, SteadyRID x (D.moment δ inputs n) (inputs n)) {n : ℕ}
    (hl : inputs n ≠ .client x .relaunch) (h : InGame rid ((D.moment δ inputs n).clients x)) :
    InGame rid ((D.moment δ inputs (n + 1)).clients x) ∨
      ((D.moment δ inputs (n + 1)).clients x).Ended := by
  have hnav : ((D.moment δ inputs n).clients x).Nav := moment_nav x n
  obtain ⟨id, b, hscreens, -⟩ := hnav.shape.head_stats h.1
  have hon : OnLobby rid id ((D.moment δ inputs n).clients x) := ⟨by rw [hscreens]; simp, h.2⟩
  have hr := currentRID_succ hsteady hl hon
  rcases client_succ (D := D) (δ := δ) inputs x n with hsame | ⟨e, he, hown⟩
  · rw [hsame]
    exact .inl h
  · rw [hown] at hr ⊢
    rcases Client.stats_stay hnav (moment_sent x n) ((D.moment δ inputs n).env D x)
      (fun hlaunch => hl (hlaunch ▸ he)) h.1 with hfront | hend
    · exact .inl ⟨hfront, hr⟩
    · exact .inr hend

/-- A game in front listens in the end, unless it ends before. -/
theorem hears_leadsTo (hserved : Served D δ x inputs)
    (hsteady : ∀ n, SteadyRID x (D.moment δ inputs n) (inputs n))
    (hl : ∀ n, start ≤ n → inputs n ≠ .client x .relaunch) (k : ℕ) :
    LeadsTo (fun n => (start ≤ n ∧ InGame rid ((D.moment δ inputs n).clients x)) ∧
        ∃ pre t, pre.length = k ∧ ((D.moment δ inputs n).clients x).transitions = pre ++ [t] ∧
          t.appears = some .stats)
      fun n => ((D.moment δ inputs n).clients x).Ended ∨
        ((start ≤ n ∧ InGame rid ((D.moment δ inputs n).clients x)) ∧
          ((D.moment δ inputs n).clients x).transitions = [] ∧
          ((D.moment δ inputs n).clients x).Listens) := by
  refine leadsTo_of_descent (P := fun k n =>
    (start ≤ n ∧ InGame rid ((D.moment δ inputs n).clients x)) ∧
      ∃ pre t, pre.length = k ∧ ((D.moment δ inputs n).clients x).transitions = pre ++ [t] ∧
        t.appears = some .stats) (fun k => ?_) k
  have hserve : ∀ n, start ≤ n → InGame rid ((D.moment δ inputs n).clients x) → ∀ pre t,
      pre.length = k → ((D.moment δ inputs n).clients x).transitions = pre ++ [t] →
      t.appears = some .stats → inputs n = .client x .appear →
      (((D.moment δ inputs (n + 1)).clients x).transitions = [] ∧
        ((D.moment δ inputs (n + 1)).clients x).Listens) ∨ ∃ j, j < k ∧ ∃ pre t, pre.length = j ∧
          ((D.moment δ inputs (n + 1)).clients x).transitions = pre ++ [t] ∧
          t.appears = some .stats := by
    intro n _ hin pre t hlen ht ha he
    rw [moment_succ, he, step_client_self]
    rcases Client.hears_appear ht ha hin.2 with ⟨pre', hlen', ht'⟩ | hlis
    · exact .inr ⟨pre'.length, by omega, pre', t, rfl, ht', ha⟩
    · exact .inl hlis
  refine leadsTo_of_helpful (H := fun n => inputs n = .client x .appear) ?_ ?_ ?_
  · intro n hn
    obtain ⟨⟨hstart, hin⟩, pre, t, hlen, ht, ha⟩ := hn
    rcases inGame_succ hsteady (hl n hstart) hin with hin' | hend
    · rcases client_succ (D := D) (δ := δ) inputs x n with hsame | ⟨e, he, hown⟩
      · exact .inl ⟨⟨by omega, hin'⟩, pre, t, hlen, by rw [hsame]; exact ht, ha⟩
      · by_cases happ : e = .appear
        · subst happ
          rcases hserve n hstart hin pre t hlen ht ha he with hlis | ⟨j, hj, hat⟩
          · exact .inr (.inl (.inr ⟨⟨by omega, hin'⟩, hlis⟩))
          · exact .inr (.inr ⟨j, hj, ⟨by omega, hin'⟩, hat⟩)
        · refine .inl ⟨⟨by omega, hin'⟩, pre, t, hlen, ?_, ha⟩
          have hfront := hin'.1
          rw [hown] at hfront ⊢
          rw [Client.transitions_of_stats (moment_nav x n) (moment_sent x n) _
            (fun h => hl n hstart (h ▸ he)) happ hin.1 hfront]
          exact ht
    · exact .inr (.inl (.inl hend))
  · intro n _
    obtain ⟨m, hm, hcase⟩ := hserved.appears n
    exact ⟨m, hm, hcase.imp_left fun hend => .inl (.inl hend)⟩
  · intro n hn he
    obtain ⟨⟨hstart, hin⟩, pre, t, hlen, ht, ha⟩ := hn
    rcases inGame_succ hsteady (hl n hstart) hin with hin' | hend
    · rcases hserve n hstart hin pre t hlen ht ha he with hlis | ⟨j, hj, hat⟩
      · exact .inl (.inr ⟨⟨by omega, hin'⟩, hlis⟩)
      · exact .inr ⟨j, hj, ⟨by omega, hin'⟩, hat⟩
    · exact .inl (.inl hend)

/-- A listening game that is shown the loss of another player ends. -/
theorem ended_of_shown (hscans : ∀ n, D.Along (δ := δ) ScansRooms (upTo inputs n))
    (horder : ∀ n, D.Along (δ := δ) (InOrderAt x) (upTo inputs n))
    (hsteady : ∀ n, SteadyRID x (D.moment δ inputs n) (inputs n))
    (hnames : ∀ y, (D.user y).name ≠ "") {n j : ℕ}
    (hin : InGame rid ((D.moment δ inputs n).clients x)) {o : Observer} (hb : o.block = .stats)
    {u : String} (hu : u ≠ (D.user x).uid)
    (hlost : ∀ i d, j ≤ i → (D.moment δ inputs n).history[i]? = some d → HasLost rid u d)
    (hshown : Shows D δ x inputs o j n) : ((D.moment δ inputs (n + 1)).clients x).Ended := by
  obtain ⟨k, i, overlaid, he, hk, hji, hi⟩ := hshown
  have hord := along_upTo.mp horder n
  rw [he] at hord
  obtain ⟨db, hv⟩ := view_of_lt (D := D) (x := x) hi overlaid
  have hd : (D.moment δ inputs n).history[i]? = some (D.moment δ inputs n).history[i] :=
    List.getElem?_eq_getElem hi
  have hnav : ((D.moment δ inputs n).clients x).Nav := moment_nav x n
  have hs : ((D.moment δ inputs n).clients x).stats.isSome = true :=
    hnav.stats_iff.mp (List.mem_of_mem_head? hin.1)
  obtain ⟨id, hid⟩ := hnav.lobby_of_stats hs
  obtain ⟨vc, rid', -, hroom⟩ := run_oneRoom D (along_upTo.mpr hsteady n) id hid
  obtain rfl : rid' = rid := Option.some.inj (hroom.currentRID.symm.trans hin.2)
  have hat := hroom.statsObservers o (List.mem_of_getElem? hk) (.inl hb)
  rw [Observer.At, hb] at hat
  have hloser := loser_of_lost (hscans n) hnames hin.2 hv hd (hord _ rfl rfl) hu (hlost i _ hji hd)
  unfold Client.Ended
  rw [moment_succ, he, step_client_self]
  exact Client.results_of_named hnav hin.1 ⟨k, i, overlaid, rfl, hk, hv⟩ hb (hat ▸ hloser)

/-- A listening game goes on listening until it ends. -/
theorem listens_succ (hsteady : ∀ n, SteadyRID x (D.moment δ inputs n) (inputs n)) {n : ℕ}
    (hl : inputs n ≠ .client x .relaunch) (hin : InGame rid ((D.moment δ inputs n).clients x))
    (hnil : ((D.moment δ inputs n).clients x).transitions = []) {o : Observer}
    (ho : o ∈ ((D.moment δ inputs n).clients x).observers) (hsingle : o.single = false) :
    (InGame rid ((D.moment δ inputs (n + 1)).clients x) ∧
      ((D.moment δ inputs (n + 1)).clients x).transitions = [] ∧
      o ∈ ((D.moment δ inputs (n + 1)).clients x).observers) ∨
      ((D.moment δ inputs (n + 1)).clients x).Ended := by
  rcases inGame_succ hsteady hl hin with hin' | hend
  swap
  · exact .inr hend
  refine .inl ⟨hin', ?_⟩
  rcases client_succ (D := D) (δ := δ) inputs x n with hsame | ⟨e, he, hown⟩
  · rw [hsame]
    exact ⟨hnil, ho⟩
  have hfront := hin'.1
  rw [hown] at hfront ⊢
  by_cases happ : e = .appear
  · -- nothing is left to appear
    subst happ
    simp only [Client.step]
    rw [show ((D.moment δ inputs n).clients x).appear = (D.moment δ inputs n).clients x by
      unfold Client.appear; rw [hnil]]
    exact ⟨hnil, ho⟩
  · have hrun : e ≠ .relaunch := fun h => hl (h ▸ he)
    refine ⟨?_, ?_⟩
    · rw [Client.transitions_of_stats (moment_nav x n) (moment_sent x n) _ hrun happ hin.1 hfront]
      exact hnil
    · refine (Client.observer_step ((D.moment δ inputs n).env D x) hrun ho
        fun h => absurd h happ).resolve_right fun hx => ?_
      obtain ⟨db, -, hone⟩ := hx
      rw [hsingle] at hone
      cases hone

/-- The states of the server from some moment on were each its database then or later. -/
theorem db_of_history {n : ℕ} (h : start ≤ n) {i : ℕ} {d : δ}
    (hi : (D.moment δ inputs start).history.length ≤ i + 1)
    (hd : (D.moment δ inputs n).history[i]? = some d) :
    ∃ m, start ≤ m ∧ (D.moment δ inputs m).db = d := by
  induction n, h using Nat.le_induction with
  | base =>
    have hlast : (D.moment δ inputs start).history.getLast? = some (D.moment δ inputs start).db :=
      getLast_history D (upTo inputs start)
    have hlt := (List.getElem?_eq_some_iff.mp hd).1
    rw [List.getLast?_eq_getElem?, show (D.moment δ inputs start).history.length - 1 = i by omega,
      hd] at hlast
    exact ⟨start, le_rfl, (Option.some.inj hlast).symm⟩
  | succ n hn ih =>
    rw [moment_succ] at hd
    cases hop : (D.moment δ inputs n).applied D (inputs n) with
    | none =>
      rw [(db_step_none D hop).2] at hd
      exact ih hd
    | some op =>
      rw [(db_step_some D hop).2] at hd
      rcases Nat.lt_or_ge i (D.moment δ inputs n).history.length with hlt | hge
      · rw [List.getElem?_append_left hlt] at hd
        exact ih hd
      · refine ⟨n + 1, by omega, ?_⟩
        rw [List.getElem?_append_right hge] at hd
        rw [moment_succ, (db_step_some D hop).1]
        exact (List.mem_singleton.mp (List.mem_of_getElem? hd)).symm

/-- **A loss ends the game for the others.** Once the server has a loss of another player,
for good, a game in front ends, even where no time passes. -/
theorem loss_ends_game (hscans : ∀ n, D.Along (δ := δ) ScansRooms (upTo inputs n))
    (horder : ∀ n, D.Along (δ := δ) (InOrderAt x) (upTo inputs n)) (hserved : Served D δ x inputs)
    (hsteady : ∀ n, SteadyRID x (D.moment δ inputs n) (inputs n))
    (hnames : ∀ y, (D.user y).name ≠ "")
    (hl : ∀ n, start ≤ n → inputs n ≠ .client x .relaunch)
    (hin : InGame rid ((D.moment δ inputs start).clients x)) {y : ι} (hy : y ≠ x)
    (hlost : ∀ n, start ≤ n → HasLost rid (D.user y).uid (D.moment δ inputs n).db) :
    ∀ᶠ n in Filter.atTop, ((D.moment δ inputs n).clients x).Ended := by
  have hu : (D.user y).uid ≠ (D.user x).uid := fun h => hy (D.uid_injective h)
  have hheard : LeadsTo (fun n => (start ≤ n ∧ InGame rid ((D.moment δ inputs n).clients x)) ∧
        ((D.moment δ inputs n).clients x).transitions = [] ∧
        ((D.moment δ inputs n).clients x).Listens)
      fun n => ((D.moment δ inputs n).clients x).Ended := by
    intro n hn
    obtain ⟨hin, hnil, o, ho, hb, hsingle⟩ := hn
    refine leadsTo_of_helpful (P := fun n =>
      (start ≤ n ∧ InGame rid ((D.moment δ inputs n).clients x)) ∧
        ((D.moment δ inputs n).clients x).transitions = [] ∧
        o ∈ ((D.moment δ inputs n).clients x).observers)
      (H := fun n => o ∉ ((D.moment δ inputs n).clients x).observers ∨
        Shows D δ x inputs o ((D.moment δ inputs start).history.length - 1) n)
      ?_ ?_ ?_ n ⟨hin, hnil, ho⟩
    · intro n hn
      obtain ⟨⟨hstart, hin⟩, hnil, ho⟩ := hn
      exact (listens_succ hsteady (hl n hstart) hin hnil ho hsingle).imp_left
        fun h => ⟨⟨by omega, h.1⟩, h.2⟩
    · intro n hn
      obtain ⟨⟨hstart, -⟩, -, ho⟩ := hn
      obtain ⟨m, hm, hcase⟩ := hserved.shows n o ho
      refine ⟨m, hm, ?_⟩
      rcases hcase with hend | hgone | ⟨k, i, overlaid, he, hk, hi, hlt⟩
      · exact .inl hend
      · exact .inr (.inl hgone)
      · refine .inr (.inr ⟨k, i, overlaid, he, hk, ?_, hlt⟩)
        have hlast : (D.moment δ inputs start).history.getLast? =
            some (D.moment δ inputs start).db := getLast_history D (upTo inputs start)
        rw [List.getLast?_eq_getElem?] at hlast
        have hlater := (List.getElem?_eq_some_iff.mp (moment_history hstart hlast)).1
        omega
    · intro n hn hhelp
      obtain ⟨⟨hstart, hin⟩, -, ho⟩ := hn
      refine ended_of_shown hscans horder hsteady hnames hin hb hu (fun i d hi hd => ?_)
        (hhelp.resolve_left fun hgone => hgone ho)
      obtain ⟨m, hm, rfl⟩ := db_of_history hstart (by omega) hd
      exact hlost m hm
  obtain ⟨m, hm, hend⟩ : ∃ m, start ≤ m ∧ ((D.moment δ inputs m).clients x).Ended := by
    rcases run_hears D (upTo inputs start) x hin.1 with ⟨pre, t, ht, ha⟩ | ⟨hnil, hlis⟩
    · obtain ⟨k, hk, hcase⟩ := hears_leadsTo hserved hsteady hl pre.length start
        ⟨⟨le_rfl, hin⟩, pre, t, rfl, ht, ha⟩
      rcases hcase with hend | hlis
      · exact ⟨k, hk, hend⟩
      · obtain ⟨m, hm, hend⟩ := hheard k hlis
        exact ⟨m, hk.trans hm, hend⟩
    · exact hheard start ⟨⟨le_rfl, hin⟩, hnil, hlis⟩
  exact eventually_of_stable hend fun n hn => ended_stays hl (hm.trans hn)

end

/-- Ann leaves the app, is marked, and both phones are shown it. -/
def annLoses : List (Event Bool) :=
  bothPlaying ++ leaves false 1001 ++
    [.client false (.snapshot 2 4 false), .client true (.snapshot 2 4 false)]

/-- Bob's game ends. -/
theorem loss_ends_game_bob :
    ∀ᶠ n in Filter.atTop,
      ((twoPhones.moment LeafTree (thenWaits annLoses) n).clients true).Ended := by
  have hscans : twoPhones.Along (δ := LeafTree) ScansRooms annLoses := by decide +kernel
  have horder : twoPhones.Along (δ := LeafTree) (InOrderAt true) annLoses := by decide +kernel
  have hsteady : twoPhones.Along (δ := LeafTree) (SteadyRID true) annLoses := by decide +kernel
  have hends : ((twoPhones.run annLoses : System Bool LeafTree).clients true).Ended := by
    decide +kernel
  have hin : InGame "-"
      ((twoPhones.run (annLoses.take 24) : System Bool LeafTree).clients true) := by
    decide +kernel
  have hlost : ∀ i ∈ [24, 25],
      HasLost "-" "uidA" (twoPhones.run (annLoses.take i) : System Bool LeafTree).db := by
    decide +kernel
  rw [← moment_thenWaits (by decide)] at hin
  refine loss_ends_game (y := false) (along_thenWaits hscans fun _ _ _ h => (by cases h))
    (along_thenWaits horder fun _ _ _ h => (by cases h)) (served_thenWaits hends)
    (along_upTo.mp (along_thenWaits hsteady fun _ _ h => (by cases h))) (by decide)
    (fun n _ => thenWaits_ne (by decide +kernel) n) hin (by decide) fun n hn => ?_
  rcases Nat.lt_or_ge n 25 with hlt | hge
  · obtain rfl : n = 24 := by omega
    rw [moment_thenWaits (by decide)]
    exact hlost 24 (by decide)
  · rw [(still_thenWaits hge).2]
    exact hlost 25 (by decide)

end Unplug.App
