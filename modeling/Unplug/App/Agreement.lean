import Unplug.App.Freshness
import Unplug.App.Screens
import Unplug.Room.LastMarked

/-! # Agreement on the loser

A client decides once: the first snapshot that shows its listener a marked user loads the
results controller, and the last marked user of that snapshot is the loser from then on.
So two clients agree exactly if the two server states that they decided on have the same
last marked user. What is written before the earlier and after the later of the two does
not matter, and in between only what moves the last marked user does. -/
namespace Unplug.App
open Unplug.Store Unplug.Firebase Unplug.Machine Unplug.Room RealtimeDatabase

/-! ## One client decides once -/

namespace Client

/-- The loser on the results screen, with the room that the client observes. -/
def shownLoser (c : Client) : Option (String × String) :=
  match c.stats.bind (·.observedRID), c.results.bind (·.loserName) with
  | some rid, some name => some (rid, name)
  | _, _ => none

theorem shownLoser_eq_some {c : Client} {rid name : String} :
    c.shownLoser = some (rid, name) ↔
      (∃ vc, c.stats = some vc ∧ vc.observedRID = some rid) ∧
        ∃ res, c.results = some res ∧ res.loserName = some name := by
  rw [← Option.bind_eq_some_iff, ← Option.bind_eq_some_iff]
  unfold shownLoser
  cases c.stats.bind (·.observedRID) with
  | none => simp
  | some rid' =>
    cases c.results.bind (·.loserName) with
    | none => simp
    | some name' => simp

/-- The stats controller holds a loser. -/
def KnowsLoser (c : Client) : Prop := ∃ vc n, c.stats = some vc ∧ vc.loserName = some n

/-- While the stats controller is in front it holds no loser, and the results, once they
are loaded, are in front of it. -/
structure DecidesOnce (c : Client) : Prop where
  unnamed : c.screens.head? = some .stats → ¬ c.KnowsLoser
  front : c.results.isSome = true → c.screens.head? = some .results

section
variable {δ : Type*} [RealtimeDatabase δ] {c : Client}

/-- A stats controller that a step leaves in front was in front, or is a new one. -/
theorem stats_before (hnav : c.Nav) (hsent : c.Writes Sent) (env : Env δ) {e : ClientEvent}
    (hfront : (c.step env e).client.screens.head? = some .stats) :
    c.screens.head? = some .stats ∨ c.stats = none := by
  have hs := screens_step hnav hsent env e
  generalize (c.step env e).client.screens = screens' at hs hfront
  cases hs with
  | same => exact .inl hfront
  | relaunched | setup | lobby | results => cases hfront
  | back _ hback =>
    have hnil := Shape.of_setup (hback ▸ hnav.shape)
    subst hnil
    cases hfront
  | dismissed _ hdismiss =>
    have hbase := Shape.of_lobby (hdismiss ▸ hnav.shape)
    exact absurd (List.mem_of_mem_head? hfront) hbase.no_stats
  | stats _ _ _ hlobby => exact .inr (hnav.stats_of_lobby hlobby)

/-- **A step decides at most once.** -/
theorem DecidesOnce.step (h : c.DecidesOnce) (hnav : c.Nav) (hsent : c.Writes Sent) (env : Env δ)
    (e : ClientEvent) : (c.step env e).client.DecidesOnce := by
  refine ⟨?_, ?_⟩
  · intro hfront hknows
    obtain ⟨vc', n, hvc', hn⟩ := hknows
    have hstats : ∀ vc, c.stats = some vc → c.screens.head? = some .stats := by
      intro vc hvc
      refine (stats_before hnav hsent env hfront).resolve_right ?_
      rw [hvc]
      exact Option.some_ne_none vc
    have hold : ∀ vc, c.stats = some vc → vc.loserName ≠ some n :=
      fun vc hvc hname => h.unnamed (hstats vc hvc) ⟨vc, n, hvc, hname⟩
    have hstep := stats_step hnav env e
    rw [hvc'] at hstep
    generalize hc : c.stats = s at hstep
    cases hstep with
    | same => exact hold _ hc hn
    | loaded => cases hn
    | lost hd hb hname =>
      -- the listener opens the results, so the stats controller is not in front
      rw [results_of_named hnav (hstats _ hc) hd hb hname] at hfront
      cases hfront
    | observed | labelled | ticked | backgrounded | locked => exact hold _ hc hn
  · intro hres
    rcases results_step (c := c) env e with hsame | he | ⟨vc, bet, -, -, hfront, -⟩
    · have hl : e ≠ .relaunch := by
        intro he
        subst he
        cases hres
      exact results_stay hnav hsent env hl (h.front (hsame ▸ hres))
    · subst he
      cases hres
    · exact hfront

/-- Nothing but a new process changes the results. -/
theorem DecidesOnce.results_kept (h : c.DecidesOnce) (hres : c.results.isSome = true) (env : Env δ)
    {e : ClientEvent} (hl : e ≠ .relaunch) : (c.step env e).client.results = c.results := by
  rcases results_step (c := c) env e with hsame | he | ⟨vc, bet, -, hfront, -⟩
  · exact hsame
  · exact absurd he hl
  · rw [h.front hres] at hfront
    cases hfront

end
end Client

section
variable {ι δ : Type*} [DecidableEq ι] [RealtimeDatabase δ]

theorem run_decidesOnce (D : Deployment ι) (evs : List (Event ι)) (x : ι) :
    ((D.run evs : System ι δ).clients x).DecidesOnce := by
  induction evs using List.reverseRecOn generalizing x with
  | nil =>
    refine ⟨?_, ?_⟩
    · intro h
      cases h
    · intro h
      cases h
  | append_singleton evs e ih =>
    rw [run_concat]
    rcases clients_step D (D.run evs : System ι δ) e x with ⟨-, hsame⟩ | ⟨e', -, hown⟩
    · rw [hsame]
      exact ih x
    · obtain ⟨hnav, hsent⟩ := run_nav (δ := δ) D evs x
      rw [hown]
      exact (ih x).step hnav hsent _ e'

/-- The step `e` after `pre` loads the results of `x`. -/
def LoadsResults (D : Deployment ι) (δ : Type*) [RealtimeDatabase δ] (x : ι)
    (pre : List (Event ι)) (e : Event ι) : Prop :=
  ((D.run pre : System ι δ).clients x).results = none ∧
    ((D.run (pre ++ [e]) : System ι δ).clients x).results.isSome = true

instance (D : Deployment ι) (x : ι) (pre : List (Event ι)) (e : Event ι) :
    Decidable (LoadsResults D δ x pre e) := inferInstanceAs (Decidable (_ ∧ _))

/-- The process of `x` decided on the server state number `i`: its snapshot loaded the
results. -/
def DecidedOn (D : Deployment ι) (δ : Type*) [RealtimeDatabase δ] (evs : List (Event ι)) (x : ι)
    (i : ℕ) : Prop :=
  ∃ pre k post, evs = pre ++ .client x (.snapshot k i false) :: post ∧
    LoadsResults D δ x pre (.client x (.snapshot k i false)) ∧ Event.client x .relaunch ∉ post

variable {D : Deployment ι} {evs : List (Event ι)} {x : ι} {i j : ℕ}

theorem DecidedOn.concat (h : DecidedOn D δ evs x i) {e : Event ι} (he : e ≠ .client x .relaunch) :
    DecidedOn D δ (evs ++ [e]) x i := by
  obtain ⟨pre, k, post, rfl, hload, hpost⟩ := h
  refine ⟨pre, k, post ++ [e], by simp, hload, ?_⟩
  intro hm
  rcases List.mem_append.mp hm with hm | hm
  · exact hpost hm
  · exact he (List.mem_singleton.mp hm).symm

/-- **A loser on the results screen was decided on.** Where snapshots show server states,
one of them loaded the results. -/
theorem decidedOn_of_results (hbare : D.Along (δ := δ) (fun _ e => e.bare = true) evs)
    {res : ResultsViewController} {n : String}
    (hres : ((D.run evs : System ι δ).clients x).results = some res)
    (hn : res.loserName = some n) : ∃ i, DecidedOn D δ evs x i := by
  induction evs using List.reverseRecOn with
  | nil => cases hres
  | append_singleton evs e ih =>
    obtain ⟨hpre, hlast⟩ := Along.concat.mp hbare
    have hkept := hres
    rw [run_concat] at hkept
    rcases clients_step D (D.run evs : System ι δ) e x with ⟨hne, hsame⟩ | ⟨e', rfl, hown⟩
    · rw [hsame] at hkept
      obtain ⟨i, hi⟩ := ih hpre hkept
      exact ⟨i, hi.concat (hne _)⟩
    rw [hown] at hkept
    have honce := run_decidesOnce (δ := δ) D evs x
    by_cases hnone : ((D.run evs : System ι δ).clients x).results = none
    · rcases Client.results_step (c := (D.run evs : System ι δ).clients x)
        ((D.run evs : System ι δ).env D x) e' with hr | rfl | ⟨vc, bet, hvc, hfront, -, hcase⟩
      · rw [hr, hnone] at hkept
        cases hkept
      · cases hkept
      rcases hcase with ⟨o, db, ⟨k, i, overlaid, rfl, -, -⟩, -, -, -⟩ | ⟨-, -, -, hr⟩
      · have hb : overlaid = false := by simpa [Event.bare] using hlast
        subst hb
        exact ⟨i, evs, k, [], rfl, ⟨hnone, by rw [hres]; rfl⟩, List.not_mem_nil⟩
      · -- the timer hands over what the stats controller in front holds, which is no loser
        rw [hr] at hkept
        cases hkept
        exact absurd ⟨vc, n, hvc, hn⟩ (honce.unnamed hfront)
    · have hl : e' ≠ .relaunch := by
        rintro rfl
        cases hkept
      have hr := honce.results_kept (Option.isSome_iff_ne_none.mpr hnone)
        ((D.run evs : System ι δ).env D x) hl
      obtain ⟨i, hi⟩ := ih hpre (hr ▸ hkept)
      exact ⟨i, hi.concat fun he => hl (by cases he; rfl)⟩

/-- The results hold the loser of the state that was decided on, in the observed room. -/
theorem DecidedOn.results (h : DecidedOn D δ evs x i) :
    ∃ d vc rid bet, (D.run evs : System ι δ).history[i]? = some d ∧
      ((D.run evs : System ι δ).clients x).stats = some vc ∧ vc.observedRID = some rid ∧
      ((D.run evs : System ι δ).clients x).results =
        some ⟨some (loserName d (roomUsersRef rid)), bet⟩ ∧
      loserName d (roomUsersRef rid) ≠ "" := by
  obtain ⟨pre, k, post, rfl, ⟨hnone, hsome⟩, hpost⟩ := h
  induction post using List.reverseRecOn with
  | nil =>
    rw [run_concat, step_client_self] at hsome ⊢
    obtain ⟨hnav, hatt⟩ := run_attached (δ := δ) D pre x
    rcases Client.results_step (c := (D.run pre : System ι δ).clients x)
      ((D.run pre : System ι δ).env D x) (.snapshot k i false) with
      hr | he | ⟨vc, bet, -, -, -, ⟨o, db, hd, hb, hname, hr⟩ | ⟨he, -⟩⟩
    · rw [hr, hnone] at hsome
      cases hsome
    · cases he
    · obtain ⟨k', i', overlaid, he, hk, hv⟩ := hd
      cases he
      obtain ⟨d, hd, hdb⟩ := Option.map_eq_some_iff.mp hv
      obtain rfl : d = db := hdb
      obtain ⟨vc', rid, hs, hrid, href⟩ := hatt.listener o (List.mem_of_getElem? hk) hb
      obtain ⟨vc'', hs'', hrid''⟩ := hatt.observed_step hnav ((D.run pre : System ι δ).env D x)
        (e := .snapshot k i false) (by simp) hs hrid
      rw [href] at hname hr
      exact ⟨d, vc'', rid, bet, getElem?_history_step D _ hd, hs'', hrid'', hr, hname⟩
    · cases he
  | append_singleton post e ih =>
    have hpost' : Event.client x .relaunch ∉ post := fun hm => hpost (List.mem_append_left _ hm)
    have hlast : e ≠ .client x .relaunch := by
      rintro rfl
      exact hpost (by simp)
    obtain ⟨d, vc, rid, bet, hd, hs, hrid, hr, hname⟩ := ih hpost'
    rw [← List.cons_append, ← List.append_assoc, run_concat]
    generalize hpre : pre ++ .client x (.snapshot k i false) :: post = evs at *
    rcases clients_step D (D.run evs : System ι δ) e x with ⟨-, hsame⟩ | ⟨e', rfl, hown⟩
    · exact ⟨d, vc, rid, bet, getElem?_history_step D e hd, by rw [hsame]; exact hs, hrid,
        by rw [hsame]; exact hr, hname⟩
    · have hl : e' ≠ .relaunch := fun he => hlast (by rw [he])
      obtain ⟨hnav, hatt⟩ := run_attached (δ := δ) D evs x
      obtain ⟨vc', hs', hrid'⟩ := hatt.observed_step hnav ((D.run evs : System ι δ).env D x) hl hs
        hrid
      have hkept := (run_decidesOnce (δ := δ) D evs x).results_kept (by rw [hr]; rfl)
        ((D.run evs : System ι δ).env D x) hl
      exact ⟨d, vc', rid, bet, getElem?_history_step D _ hd, by rw [hown]; exact hs', hrid',
        by rw [hown, hkept]; exact hr, hname⟩

/-- **What a client decided on is what it shows.** -/
theorem DecidedOn.shown (h : DecidedOn D δ evs x i) {rid n : String}
    (hshown : ((D.run evs : System ι δ).clients x).shownLoser = some (rid, n)) :
    ∃ d, (D.run evs : System ι δ).history[i]? = some d ∧
      loserName d (roomUsersRef rid) = n ∧ n ≠ "" := by
  obtain ⟨d, vc, rid', bet, hd, hs, hrid, hr, hname⟩ := h.results
  obtain ⟨⟨vc', hs', hrid'⟩, res, hr', hn⟩ := Client.shownLoser_eq_some.mp hshown
  obtain rfl : vc = vc' := Option.some.inj (hs.symm.trans hs')
  obtain rfl : rid' = rid := Option.some.inj (hrid.symm.trans hrid')
  rw [hr] at hr'
  cases hr'
  cases hn
  exact ⟨d, hd, rfl, hname⟩

/-! ## Two decisions -/

/-- The last marked user of the room in the server's state number `i`. -/
def lastMarkedAt (D : Deployment ι) (δ : Type*) [RealtimeDatabase δ] (evs : List (Event ι))
    (rid : String) (i : ℕ) : Option String :=
  ((D.run evs : System ι δ).history[i]?).bind fun d => lastMarked d (roomUsersRef rid)

/-- The server's write number `k`, if it is one to the room, keeps the room's last marked
user. -/
def KeepsLoser (D : Deployment ι) (δ : Type*) [RealtimeDatabase δ] (evs : List (Event ι))
    (rid : String) (k : ℕ) : Prop :=
  ∀ op ∈ (D.writes δ evs)[k]?, ∀ d ∈ (D.run evs : System ι δ).history[k]?, op.rid = rid →
    KeepsLast d op

instance (D : Deployment ι) (evs : List (Event ι)) (rid : String) (k : ℕ) :
    Decidable (KeepsLoser D δ evs rid k) :=
  inferInstanceAs (Decidable (∀ op ∈ (D.writes δ evs)[k]?, ∀ d ∈ _, _))

variable {rid : String}

/-- Writes that keep the last marked user keep it up to a later state. -/
theorem lastMarkedAt_of_keeps (hk : IsKey rid) (hscans : D.Along (δ := δ) ScansKeys evs)
    (hij : i ≤ j) (hkeeps : ∀ k, i ≤ k → k < j → KeepsLoser D δ evs rid k)
    (hj : j < (D.run evs : System ι δ).history.length) {u : String}
    (hu : lastMarkedAt D δ evs rid i = some u) : lastMarkedAt D δ evs rid j = some u := by
  induction j, hij using Nat.le_induction with
  | base => exact hu
  | succ j hij ih =>
    have hbefore := ih (fun k hik hkj => hkeeps k hik (by omega)) (by omega)
    have hd := List.getElem?_eq_getElem hj
    obtain ⟨op, d, hop, hd', happ⟩ := history_succ D hd
    rw [lastMarkedAt, hd'] at hbefore
    rw [lastMarkedAt, hd, happ]
    exact lastMarked_apply hk (writes_keys D hscans op (List.mem_of_getElem? hop))
      (hkeeps j hij (by omega) op hop d hd') hbefore

/-- The name that a state gives the listener is that of the player who is last marked there. -/
theorem player_of_loserName (hk : IsKey rid) (hscans : D.Along (δ := δ) ScansKeys evs) {d : δ}
    (hd : (D.run evs : System ι δ).history[i]? = some d)
    (hn : loserName d (roomUsersRef rid) ≠ "") :
    ∃ a, lastMarkedAt D δ evs rid i = some (D.user a).uid ∧
      (D.user a).name = loserName d (roomUsersRef rid) := by
  have hjust := (run_justified D hscans).2 d (List.mem_of_getElem? hd)
  obtain ⟨uid, hlast, -, ⟨user, ⟨a, rfl⟩, huid, hname⟩, -⟩ := hjust.loser hk hn
  refine ⟨a, ?_, hname⟩
  rw [lastMarkedAt, hd, huid]
  exact hlast

/-- **Agreement on the loser.** Snapshots show server states, and scanned codes are single
keys. Two clients that show a loser for a room have each decided on a server state. They
show the same name if every write to the room between the two states keeps its last marked
user, and, names being distinct, exactly if the two states have the same one. -/
theorem losers_agree (D : Deployment ι) {evs : List (Event ι)} {rid : String}
    (hscans : D.Along (δ := δ) ScansKeys evs)
    (hbare : D.Along (δ := δ) (fun _ e => e.bare = true) evs)
    {x y : ι} {n m : String}
    (hx : ((D.run evs : System ι δ).clients x).shownLoser = some (rid, n))
    (hy : ((D.run evs : System ι δ).clients y).shownLoser = some (rid, m)) :
    (∃ i, DecidedOn D δ evs x i) ∧ (∃ j, DecidedOn D δ evs y j) ∧
      ∀ i j, DecidedOn D δ evs x i → DecidedOn D δ evs y j →
        ((∀ k, min i j ≤ k → k < max i j → KeepsLoser D δ evs rid k) → n = m) ∧
        ((∀ a b, (D.user a).name = (D.user b).name → a = b) →
          (n = m ↔ lastMarkedAt D δ evs rid i = lastMarkedAt D δ evs rid j)) := by
  have hdecided : ∀ {z name}, ((D.run evs : System ι δ).clients z).shownLoser = some (rid, name) →
      ∃ i, DecidedOn D δ evs z i := by
    intro z name hz
    obtain ⟨-, res, hres, hn⟩ := Client.shownLoser_eq_some.mp hz
    exact decidedOn_of_results hbare hres hn
  refine ⟨hdecided hx, hdecided hy, ?_⟩
  intro i j hi hj
  have hk : IsKey rid := by
    obtain ⟨⟨vc, hs, ho⟩, -⟩ := Client.shownLoser_eq_some.mp hx
    exact (run_keys D hscans x).1.observed vc rid hs ho
  obtain ⟨d, hd, rfl, hn⟩ := hi.shown hx
  obtain ⟨d', hd', rfl, hm⟩ := hj.shown hy
  obtain ⟨a, ha, haname⟩ := player_of_loserName hk hscans hd hn
  obtain ⟨b, hb, hbname⟩ := player_of_loserName hk hscans hd' hm
  have hsame : lastMarkedAt D δ evs rid i = lastMarkedAt D δ evs rid j → a = b := by
    intro h
    rw [ha, hb] at h
    exact D.uid_injective (Option.some.inj h)
  refine ⟨?_, ?_⟩
  · intro hkeeps
    have hab : a = b := by
      apply hsame
      rcases Nat.le_total i j with hij | hji
      · rw [min_eq_left hij, max_eq_right hij] at hkeeps
        rw [ha, lastMarkedAt_of_keeps hk hscans hij hkeeps (List.getElem?_eq_some_iff.mp hd').1 ha]
      · rw [min_eq_right hji, max_eq_left hji] at hkeeps
        rw [hb, lastMarkedAt_of_keeps hk hscans hji hkeeps (List.getElem?_eq_some_iff.mp hd).1 hb]
    rw [← haname, ← hbname, hab]
  · intro hnames
    constructor
    · intro hnm
      have hab : a = b := hnames a b (haname.trans (hnm.trans hbname.symm))
      rw [ha, hb, hab]
    · intro h
      rw [← haname, ← hbname, hsame h]

end

/-! ## Two losers -/

/-- Ann starts the room, the stats controllers appear on both phones. -/
def bothPlaying : List (Event Bool) :=
  bothInLobby ++ [.client false .startRoomTUI, .client false (.deliverWrite true),
    .client false .ack, .client false (.snapshot 0 3 false), .client false .appear,
    .client true (.snapshot 0 3 false), .client true .appear]

/-- The client leaves the app, and its mark is committed once the check is due. -/
def leaves (c : Bool) (t : ℚ) : List (Event Bool) :=
  [.client c .didEnterBackground, .clock t, .client c (.check 0),
    .client c (.runBlock 0 (some (.num 0))), .client c (.compare 0)]

/-- Bob is marked, Ann's phone shows him as the loser, then her own mark is committed, and
Bob's phone is shown both. -/
def bobThenAnn : List (Event Bool) :=
  bothPlaying ++ leaves true 1001 ++ (leaves false 1002).take 4 ++
    [.client false (.snapshot 2 4 false)] ++ (leaves false 1002).drop 4 ++
    [.client true (.snapshot 2 5 false)]

theorem losers_agree_bob :
    DecidedOn twoPhones LeafTree bobThenAnn false 4 ∧
      DecidedOn twoPhones LeafTree bobThenAnn true 5 ∧
      ∃ n m, ((twoPhones.run bobThenAnn : System Bool LeafTree).clients false).shownLoser =
          some ("-", n) ∧
        ((twoPhones.run bobThenAnn : System Bool LeafTree).clients true).shownLoser =
          some ("-", m) ∧ n = m := by
  have hscans : twoPhones.Along (δ := LeafTree) ScansRooms bobThenAnn := by decide +kernel
  have hbare : twoPhones.Along (δ := LeafTree) (fun _ e => e.bare = true) bobThenAnn := by
    decide +kernel
  have ha : ((twoPhones.run bobThenAnn : System Bool LeafTree).clients false).shownLoser =
      some ("-", "Bob") := by decide +kernel
  have hb : ((twoPhones.run bobThenAnn : System Bool LeafTree).clients true).shownLoser =
      some ("-", "Bob") := by decide +kernel
  have hann : DecidedOn twoPhones LeafTree bobThenAnn false 4 :=
    ⟨bobThenAnn.take 27, 2, bobThenAnn.drop 28, rfl, by decide +kernel, by decide +kernel⟩
  have hbob : DecidedOn twoPhones LeafTree bobThenAnn true 5 :=
    ⟨bobThenAnn.take 29, 2, [], rfl, by decide +kernel, by decide +kernel⟩
  have hkeeps : ∀ k, min 4 5 ≤ k → k < max 4 5 → KeepsLoser twoPhones LeafTree bobThenAnn "-" k := by
    intro k h4 h5
    obtain rfl : k = 4 := by omega
    decide +kernel
  obtain ⟨-, -, hagree⟩ := losers_agree twoPhones (hscans.mono fun _ _ h => h.scansKeys) hbare ha hb
  exact ⟨hann, hbob, _, _, ha, hb, (hagree 4 5 hann hbob).1 hkeeps⟩

/-- Ann's phone is shown that she is marked before Bob is, and Bob's phone after. -/
def annThenBob : List (Event Bool) :=
  bothPlaying ++ leaves false 1001 ++ [.client false (.snapshot 2 4 false)] ++
    leaves true 1002 ++ [.client true (.snapshot 2 5 false)]

/-- Both marks are on the server, and each phone shows its own user as the loser. -/
theorem two_losers_shown :
    twoPhones.Along (δ := LeafTree) (fun s e => e.bare = true ∧ InOrder s e) annThenBob ∧
      ¬ ∀ n m, ((twoPhones.run annThenBob : System Bool LeafTree).clients false).shownLoser =
          some ("-", n) →
        ((twoPhones.run annThenBob : System Bool LeafTree).clients true).shownLoser =
          some ("-", m) → n = m := by
  refine ⟨by decide +kernel, ?_⟩
  intro h
  have hnames : "Ann" = "Bob" := h "Ann" "Bob" (by decide +kernel) (by decide +kernel)
  exact absurd hnames (by decide)

end Unplug.App
