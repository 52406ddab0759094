import Unplug.App.LobbyList
import Unplug.App.Members

/-! # Who a lobby lists

A lobby's list is made of what its observers have been shown. It names members of the room
only, and under fair service every member gets into it and stays. -/
namespace Unplug.App
open Unplug.Store Unplug.Firebase Unplug.Machine Unplug.Room RealtimeDatabase

/-- The lobby `id` of the client lists `uid` under the name. -/
def Client.Listed (id : ℕ) (uid name : String) (c : Client) : Prop :=
  ∃ vc, c.lobbies[id]? = some vc ∧ vc.uidAndNameDict.lookup uid = some name

instance (id : ℕ) (uid name : String) (c : Client) : Decidable (c.Listed id uid name) :=
  decidable_of_iff ((c.lobbies[id]?).bind (·.uidAndNameDict.lookup uid) = some name)
    Option.bind_eq_some_iff

section
variable {ι δ : Type*} [DecidableEq ι] [RealtimeDatabase δ] {D : Deployment ι}
  {evs : List (Event ι)} {x : ι} {rid uid name : String} {id : ℕ}

/-! ## Only members are listed -/

/-- A new lobby lists nobody. -/
theorem not_listed_presentLobby {c : Client} {sender : Option Screen} {bet : Option ℚ} :
    ¬ (c.presentLobby sender bet).Listed c.lobbies.length uid name := by
  intro h
  obtain ⟨vc, hvc, hlook⟩ := h
  rw [Client.presentLobby, Client.present] at hvc
  split at hvc
  · rw [show (c.lobbies ++ [QRCodeGeneratorViewController.viewDidLoad c.currentRID bet])[
      c.lobbies.length]? = some (.viewDidLoad c.currentRID bet) by simp] at hvc
    cases hvc
    cases hlook
  · rw [List.getElem?_eq_none le_rfl] at hvc
    cases hvc

/-- A lobby on the screens was there before the step, or is new and lists nobody. -/
theorem onLobby_before (hsteady : D.Along (δ := δ) (SteadyRID x) evs) {e : ClientEvent}
    (hs : SteadyRID x (D.run evs : System ι δ) (.client x e))
    (hon : OnLobby rid id (((D.run evs : System ι δ).step D (.client x e)).clients x))
    (hlisted : (((D.run evs : System ι δ).step D (.client x e)).clients x).Listed id uid name) :
    OnLobby rid id ((D.run evs : System ι δ).clients x) ∧ e ≠ .relaunch := by
  have hsteady' : D.Along (δ := δ) (SteadyRID x) (evs ++ [.client x e]) :=
    Along.concat.mpr ⟨hsteady, hs⟩
  have hroom' := run_oneRoom D hsteady'
  rw [run_concat] at hroom'
  obtain ⟨vc', rid', hvc', hin'⟩ := hroom' id hon.1
  obtain rfl : rid' = rid := Option.some.inj (hin'.currentRID.symm.trans hon.2)
  have hl : e ≠ .relaunch := by
    rintro rfl
    have hmem := hon.1
    rw [step_client_self] at hmem
    exact List.not_mem_nil hmem
  refine ⟨?_, hl⟩
  rw [step_client_self] at hon hlisted hvc'
  have hold : Screen.lobby id ∈ ((D.run evs : System ι δ).clients x).screens := by
    by_contra hno
    by_cases ha : e = .ack
    · subst ha
      simp only [Client.step] at hon hlisted
      rcases ((D.run evs : System ι δ).clients x).ack_cases with ⟨-, hack⟩ |
        ⟨w, answer, rest, -, -, hack⟩ | ⟨w, n, rest, bet, -, -, -, hack⟩
      · rw [hack] at hon
        exact hno hon.1
      · rw [hack] at hon
        exact hno hon.1
      · rw [hack] at hon hlisted
        have hmem := hon.1
        rw [Client.screens_presentLobby] at hmem
        split at hmem
        · rcases List.mem_cons.mp hmem with hid | hmem
          · cases hid
            exact not_listed_presentLobby hlisted
          · exact hno hmem
        · exact hno hmem
    · exact hno ((Client.follows_step _ ha hl).screens id hon.1)
  refine ⟨hold, ?_⟩
  -- the lobby's code is that of the room, before and after
  obtain ⟨vc, rid₀, hvc, hin⟩ := run_oneRoom D hsteady id hold
  obtain ⟨vc'', hvc'', hstep⟩ := lobby_step
    ((D.run evs : System ι δ).env D x) ((D.run evs : System ι δ).clients x) hl hvc
  obtain rfl : vc'' = vc' := Option.some.inj (hvc''.symm.trans hvc')
  have hcode : vc''.qrCode = vc.qrCode := by cases hstep <;> rfl
  rw [hin.currentRID, ← hin.qrCode, ← hcode, hin'.qrCode]

/-- **Lobbies list members only.** Whoever a lobby lists is in the lobby's room, under that
name. -/
theorem listed_members (hscans : D.Along (δ := δ) ScansRooms evs)
    (horder : D.Along (δ := δ) (InOrderAt x) evs) (hsteady : D.Along (δ := δ) (SteadyRID x) evs)
    (hon : OnLobby rid id ((D.run evs : System ι δ).clients x))
    (hlisted : ((D.run evs : System ι δ).clients x).Listed id uid name) :
    (recordsAt (D.run evs : System ι δ).db).Has rid uid name := by
  induction evs using List.reverseRecOn with
  | nil => exact (List.not_mem_nil hon.1).elim
  | append_singleton evs e ih =>
    obtain ⟨hscans', -⟩ := Along.concat.mp hscans
    obtain ⟨horder', hord⟩ := Along.concat.mp horder
    obtain ⟨hsteady', hs⟩ := Along.concat.mp hsteady
    rw [run_concat] at hon hlisted ⊢
    rcases clients_step D (D.run evs : System ι δ) e x with ⟨-, hsame⟩ | ⟨e', rfl, hown⟩
    · rw [hsame] at hon hlisted
      exact has_step hscans' e (ih hscans' horder' hsteady' hon hlisted)
    obtain ⟨hon₀, hl⟩ := onLobby_before hsteady' hs hon hlisted
    refine has_step hscans' _ ?_
    obtain ⟨vc, rid₀, hvc, hin⟩ := run_oneRoom D hsteady' id hon₀.1
    obtain rfl : rid₀ = rid := Option.some.inj (hin.currentRID.symm.trans hon₀.2)
    obtain ⟨vc', hvc', hlook⟩ := hlisted
    obtain ⟨vc'', hvc'', hstep⟩ := lobby_step
      ((D.run evs : System ι δ).env D x) ((D.run evs : System ι δ).clients x) hl hvc
    rw [hown] at hvc'
    obtain rfl : vc'' = vc' := Option.some.inj (hvc''.symm.trans hvc')
    cases hstep with
    | same => exact ih hscans' horder' hsteady' hon₀ ⟨_, hvc, hlook⟩
    | observed _ => exact ih hscans' horder' hsteady' hon₀ ⟨_, hvc, hlook⟩
    | @told k i overlaid o db he hk hv hb =>
      subst he
      have hat := hin.lobbyObservers o (List.mem_of_getElem? hk) hb
      rw [Observer.At, hb] at hat
      simp only [hat, lookup_collectNames] at hlook
      split at hlook
      · obtain ⟨d, hd, -⟩ := Option.map_eq_some_iff.mp hv
        have hself := enrolled_at hscans' hon₀.2 (hord _ rfl rfl) hd
        exact has_now hscans' (List.mem_of_getElem? hd)
          (((view_members hscans' hon₀.2 hv hd hself).1 uid name).mp hlook)
      · exact ih hscans' horder' hsteady' hon₀ ⟨_, hvc, hlook⟩

end

/-- Ann's lobby, shown the room with Bob in it, lists him. -/
def annShownBob : List (Event Bool) := bothInLobby ++ [.client false (.snapshot 0 2 true)]

theorem listed_members_bob :
    (recordsAt (twoPhones.run annShownBob : System Bool LeafTree).db).Has "-" "uidB" "Bob" := by
  have hscans : twoPhones.Along (δ := LeafTree) ScansRooms annShownBob := by decide +kernel
  have horder : twoPhones.Along (δ := LeafTree) (InOrderAt false) annShownBob := by decide +kernel
  have hsteady : twoPhones.Along (δ := LeafTree) (SteadyRID false) annShownBob := by decide +kernel
  have hon : OnLobby "-" 0 ((twoPhones.run annShownBob : System Bool LeafTree).clients false) := by
    decide +kernel
  have hlisted : ((twoPhones.run annShownBob : System Bool LeafTree).clients false).Listed 0 "uidB"
      "Bob" := by decide +kernel
  exact listed_members hscans horder hsteady hon hlisted

section
variable {ι δ : Type*} [DecidableEq ι] [RealtimeDatabase δ] {D : Deployment ι}
  {evs : List (Event ι)} {x : ι} {rid uid name : String} {id : ℕ}

/-! ## Every member is listed -/

omit [DecidableEq ι] in
theorem has_unique {records : Records} {name' : String} (h : records.Has rid uid name)
    (h' : records.Has rid uid name') : name = name' := by
  obtain ⟨r, e, hr, he, rfl⟩ := h
  obtain ⟨r', e', hr', he', rfl⟩ := h'
  obtain rfl : r = r' := Option.some.inj (hr.symm.trans hr')
  rw [Option.some.inj (he.symm.trans he')]

/-- A member that is listed stays so. -/
theorem listed_step (hscans : D.Along (δ := δ) ScansRooms evs)
    (hsteady : D.Along (δ := δ) (SteadyRID x) evs) {e : ClientEvent}
    (hord : InOrder (D.run evs : System ι δ) (.client x e)) (hl : e ≠ .relaunch)
    (hon : OnLobby rid id ((D.run evs : System ι δ).clients x))
    (hmember : (recordsAt (D.run evs : System ι δ).db).Has rid uid name)
    (h : ((D.run evs : System ι δ).clients x).Listed id uid name) :
    (((D.run evs : System ι δ).clients x).step ((D.run evs : System ι δ).env D x)
      e).client.Listed id uid name := by
  obtain ⟨vc, hvc, hlook⟩ := h
  obtain ⟨vc', hvc', hstep⟩ := lobby_step
    ((D.run evs : System ι δ).env D x) ((D.run evs : System ι δ).clients x) hl hvc
  refine ⟨vc', hvc', ?_⟩
  cases hstep with
  | same => exact hlook
  | observed _ => exact hlook
  | @told k i overlaid o db he hk hv hb =>
    subst he
    have href := (run_oneRoom D hsteady).ref_of_onLobby hon (List.mem_of_getElem? hk) hb
    simp only [href, lookup_collectNames]
    split
    · rename_i hchild
      obtain ⟨d, hd, -⟩ := Option.map_eq_some_iff.mp hv
      have hview := view_members hscans hon.2 hv hd (enrolled_at hscans hon.2 (hord _ rfl) hd)
      obtain ⟨name', hname'⟩ := hview.2 uid hchild
      have hnow := has_now hscans (List.mem_of_getElem? hd) hname'
      rw [(hview.1 uid name').mpr hname', has_unique hnow hmember]
    · exact hlook

/-- A member that a lobby is shown gets into its list. -/
theorem listed_of_told (hscans : D.Along (δ := δ) ScansRooms evs)
    (hsteady : D.Along (δ := δ) (SteadyRID x) evs) {k i j : ℕ} {overlaid : Bool}
    (hord : InOrder (D.run evs : System ι δ) (.client x (.snapshot k i overlaid)))
    (hon : OnLobby rid id ((D.run evs : System ι δ).clients x)) {o : Observer}
    (hk : ((D.run evs : System ι δ).clients x).observers[k]? = some o) (hb : o.block = .lobby id)
    {d : δ} (hd : (D.run evs : System ι δ).history[j]? = some d)
    (hmember : (recordsAt d).Has rid uid name) (hji : j ≤ i)
    (hi : i < (D.run evs : System ι δ).history.length) :
    (((D.run evs : System ι δ).clients x).step ((D.run evs : System ι δ).env D x)
      (.snapshot k i overlaid)).client.Listed id uid name := by
  obtain ⟨db, hv⟩ := view_of_lt (D := D) (x := x) hi overlaid
  have hd' : (D.run evs : System ι δ).history[i]? = some (D.run evs : System ι δ).history[i] :=
    List.getElem?_eq_getElem hi
  have hview := view_members hscans hon.2 hv hd' (enrolled_at hscans hon.2 (hord _ rfl) hd')
  have hhas := (related_of_le (R := fun a b : δ => (recordsAt a).Kept (recordsAt b))
    (fun _ => .refl _) (history_kept hscans) hji hd hd').has hmember
  have hname := (hview.1 uid name).mpr hhas
  have hchild : uid ∈ children db (roomUsersRef rid) := by
    refine mem_children_iff.mpr ⟨["name"], .str name, ?_⟩
    rw [List.append_assoc]
    exact strAt_eq_some.mp hname
  obtain ⟨vc, -, hvc, -⟩ := run_oneRoom D hsteady id hon.1
  have href := (run_oneRoom D hsteady).ref_of_onLobby hon (List.mem_of_getElem? hk) hb
  refine ⟨{ vc with uidAndNameDict := collectNames db o.ref vc.uidAndNameDict }, ?_, ?_⟩
  · simp only [Client.step, Client.snapshot, hk, hv]
    rw [lobbies_deliver _ k hb db, List.getElem?_modify_eq, hvc]
    rfl
  · simp only [href, lookup_collectNames, if_pos hchild]
    exact hname

variable {inputs : ℕ → Event ι} {start : ℕ}

/-- A member that the server has when the lobby is attached gets into its list. -/
theorem member_leadsTo (hscans : ∀ n, D.Along (δ := δ) ScansRooms (upTo inputs n))
    (horder : ∀ n, D.Along (δ := δ) (InOrderAt x) (upTo inputs n)) (hserved : Served D δ x inputs)
    (hsteady : ∀ n, SteadyRID x (D.moment δ inputs n) (inputs n))
    (hl : ∀ n, start ≤ n → inputs n ≠ .client x .relaunch)
    (hd : ∀ n, start ≤ n → inputs n ≠ .client x .dismiss) {j : ℕ} {d : δ}
    (hdata : (D.moment δ inputs start).history[j]? = some d)
    (hmember : (recordsAt d).Has rid uid name) {o : Observer} (hb : o.block = .lobby id)
    (hsingle : o.single = false) :
    LeadsTo (fun n => (start ≤ n ∧ OnLobby rid id ((D.moment δ inputs n).clients x)) ∧
        o ∈ ((D.moment δ inputs n).clients x).observers)
      fun n => ((D.moment δ inputs n).clients x).Ended ∨
        ((D.moment δ inputs n).clients x).Listed id uid name := by
  refine leadsTo_of_helpful (H := fun n =>
    o ∉ ((D.moment δ inputs n).clients x).observers ∨ Shows D δ x inputs o j n) ?_ ?_ ?_
  · intro n hn
    obtain ⟨⟨hstart, hon⟩, ho⟩ := hn
    exact .inl ⟨⟨by omega, onLobby_succ hsteady (hl n hstart) (hd n hstart) hon⟩,
      observer_succ hscans hsteady (hl n hstart) hon ho hb hsingle⟩
  · intro n hn
    obtain ⟨⟨hstart, -⟩, ho⟩ := hn
    obtain ⟨m, hm, hcase⟩ := hserved.shows n o ho
    refine ⟨m, hm, ?_⟩
    rcases hcase with hend | hgone | ⟨k, i, overlaid, he, hk, hi, hlt⟩
    · exact .inl (.inl hend)
    · exact .inr (.inl hgone)
    · have hj := (List.getElem?_eq_some_iff.mp (moment_history hstart hdata)).1
      exact .inr (.inr ⟨k, i, overlaid, he, hk, by omega, hlt⟩)
  · intro n hn hhelp
    obtain ⟨⟨hstart, hon⟩, ho⟩ := hn
    obtain ⟨k, i, overlaid, he, hk, hji, hi⟩ := hhelp.resolve_left fun hgone => hgone ho
    have hord := along_upTo.mp horder n
    rw [he] at hord
    rw [moment_succ, he, step_client_self]
    exact .inr (listed_of_told (hscans n) (along_upTo.mpr hsteady n) hord.inOrder hon hk hb
      (moment_history hstart hdata) hmember hji hi)

/-- **Every member gets listed.** Whoever the server takes into a room is in the end on the
list of each lobby of the room, for good, unless the game of the lobby's phone ends. -/
theorem members_listed (hscans : ∀ n, D.Along (δ := δ) ScansRooms (upTo inputs n))
    (horder : ∀ n, D.Along (δ := δ) (InOrderAt x) (upTo inputs n)) (hserved : Served D δ x inputs)
    (hsteady : ∀ n, SteadyRID x (D.moment δ inputs n) (inputs n))
    (hon : OnLobby rid id ((D.moment δ inputs start).clients x))
    (hquit : ∀ n, start ≤ n → inputs n ≠ .client x .relaunch ∧ inputs n ≠ .client x .dismiss)
    {m : ℕ} (hmember : (recordsAt (D.moment δ inputs m).db).Has rid uid name) :
    ∀ᶠ n in Filter.atTop, ((D.moment δ inputs n).clients x).Ended ∨
      ((D.moment δ inputs n).clients x).Listed id uid name := by
  have hl : ∀ n, start ≤ n → inputs n ≠ .client x .relaunch := fun n hn => (hquit n hn).1
  have hlobby : ∀ n, start ≤ n → OnLobby rid id ((D.moment δ inputs n).clients x) := by
    intro n hn
    induction n, hn using Nat.le_induction with
    | base => exact hon
    | succ n hn ih => exact onLobby_succ hsteady (hl n hn) (hquit n hn).2 ih
  have hhas : ∀ n, m ≤ n → (recordsAt (D.moment δ inputs n).db).Has rid uid name := by
    intro n hn
    induction n, hn using Nat.le_induction with
    | base => exact hmember
    | succ n _ ih =>
      rw [moment_succ]
      exact has_step (hscans n) (inputs n) ih
  -- from `late` on the lobby is on the screens and the member in the room
  obtain ⟨late, hstart, hm⟩ : ∃ late, start ≤ late ∧ m ≤ late :=
    ⟨max start m, le_max_left _ _, le_max_right _ _⟩
  have hlast : (D.moment δ inputs late).history.getLast? = some (D.moment δ inputs late).db :=
    getLast_history D (upTo inputs late)
  rw [List.getLast?_eq_getElem?] at hlast
  have hl' : ∀ n, late ≤ n → inputs n ≠ .client x .relaunch := fun n hn => hl n (hstart.trans hn)
  have hd' : ∀ n, late ≤ n → inputs n ≠ .client x .dismiss :=
    fun n hn => (hquit n (hstart.trans hn)).2
  obtain ⟨k, hk, hcase⟩ := onLobby_leadsTo hscans hserved hsteady hl' hd' id late
    ⟨le_rfl, hlobby late hstart⟩
  obtain ⟨k', hk', hdone⟩ : ∃ k', late ≤ k' ∧ (((D.moment δ inputs k').clients x).Ended ∨
      ((D.moment δ inputs k').clients x).Listed id uid name) := by
    rcases hcase with hend | ⟨hin, o, ho, hb, hsingle⟩
    · exact ⟨k, hk, .inl hend⟩
    · obtain ⟨k', hk', hdone⟩ := member_leadsTo hscans horder hserved hsteady hl' hd' hlast
        (hhas late hm) hb hsingle k ⟨hin, ho⟩
      exact ⟨k', hk.trans hk', hdone⟩
  refine eventually_of_stable hdone fun n hn h => ?_
  have hn' : start ≤ n := hstart.trans (hk'.trans hn)
  rcases h with hend | hlisted
  · exact .inl (ended_stays hl hn' hend)
  rcases client_succ (D := D) (δ := δ) inputs x n with hsame | ⟨e, he, hown⟩
  · rw [hsame]
    exact .inr hlisted
  · have hord := along_upTo.mp horder n
    rw [he] at hord
    rw [hown]
    exact .inr (listed_step (hscans n) (along_upTo.mpr hsteady n) hord.inOrder
      (fun h => hl n hn' (h ▸ he)) (hlobby n hn') (hhas n (hm.trans (hk'.trans hn))) hlisted)

end

/-- Bob is in the end on the list of Ann's lobby, or her game is over. -/
theorem members_listed_bob :
    ∀ᶠ n in Filter.atTop,
      ((twoPhones.moment LeafTree (thenWaits wholeGame) n).clients false).Ended ∨
        ((twoPhones.moment LeafTree (thenWaits wholeGame) n).clients false).Listed 0 "uidB"
          "Bob" := by
  have hscans : twoPhones.Along (δ := LeafTree) ScansRooms wholeGame := by decide +kernel
  have horder : twoPhones.Along (δ := LeafTree) (InOrderAt false) wholeGame := by decide +kernel
  have hsteady : twoPhones.Along (δ := LeafTree) (SteadyRID false) wholeGame := by decide +kernel
  have hends : ((twoPhones.run wholeGame : System Bool LeafTree).clients false).Ended := by
    decide +kernel
  have hon : OnLobby "-" 0
      ((twoPhones.run (wholeGame.take 11) : System Bool LeafTree).clients false) := by
    decide +kernel
  have hmember : (recordsAt (twoPhones.run (wholeGame.take 11) : System Bool LeafTree).db).Has "-"
      "uidB" "Bob" := by decide +kernel
  have hquit : Event.client false .relaunch ∉ wholeGame ∧
      Event.client false .dismiss ∉ wholeGame := by
    decide +kernel
  rw [← moment_thenWaits (by decide)] at hon hmember
  exact members_listed (along_thenWaits hscans fun _ _ _ h => (by cases h))
    (along_thenWaits horder fun _ _ _ h => (by cases h)) (served_thenWaits hends)
    (along_upTo.mp (along_thenWaits hsteady fun _ _ h => (by cases h))) hon
    (fun n _ => ⟨thenWaits_ne hquit.1 n, thenWaits_ne hquit.2 n⟩) hmember

end Unplug.App
