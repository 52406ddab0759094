import Unplug.App.Liveness
import Unplug.App.LobbyLife

/-! # From the Start tap to everybody's results

A tapped start reaches the server, and no write takes it back. Every lobby of the room is
attached and is shown the start, opens the game, and the game ends. So one tap ends the
game on every phone that stays. -/
namespace Unplug.App
open Unplug.Store Unplug.Firebase Unplug.Machine Unplug.Room RealtimeDatabase

/-! ## A room that is under way -/

section
variable {δ : Type*} [RealtimeDatabase δ]

/-- The room has been started. -/
def Underway (rid : String) (db : δ) : Prop :=
  ∃ t, t ≠ 0 ∧ leafAt db ["rooms", rid, "timeStart"] = some (.num t)

theorem Underway.apply {rid : String} {db : δ} (h : Underway rid db) {op : RoomOp}
    (hop : AfterCreate rid op) (ht : ∀ t, op = .startRoom rid t → t ≠ 0) :
    Underway rid (op.apply db) := by
  obtain ⟨t, hne, hl⟩ := h
  unfold Underway
  rw [leafAt_timeStart_apply hop]
  cases hs : startedAt rid op with
  | none => exact ⟨t, hne, hl⟩
  | some t' => exact ⟨t', ht t' (startedAt_eq_some.mp hs), rfl⟩

theorem Underway.foldl {rid : String} {ops : List RoomOp} (hops : ∀ op ∈ ops, AfterCreate rid op)
    (ht : ∀ t, .startRoom rid t ∈ ops → t ≠ 0) {db : δ} (h : Underway rid db) :
    Underway rid (ops.foldl RoomOp.apply db) := by
  induction ops generalizing db with
  | nil => exact h
  | cons op ops ih =>
    refine ih (fun o ho => hops o (List.mem_cons_of_mem _ ho))
      (fun t hm => ht t (List.mem_cons_of_mem _ hm)) (h.apply (hops op List.mem_cons_self) ?_)
    intro t he
    exact ht t (he ▸ List.mem_cons_self)

/-- The lobby's block takes such a room for started. -/
theorem Underway.started {rid : String} (hk : IsKey rid) {db : δ} (h : Underway rid db) :
    started db (roomRef rid) = true := by
  obtain ⟨t, hne, hl⟩ := h
  rw [started_iff, roomRef_key hk]
  refine ⟨⟨[], _, hl⟩, ?_⟩
  intro hzero
  rw [show ["rooms", rid] ++ ["timeStart"] = ["rooms", rid, "timeStart"] from rfl, hl] at hzero
  cases hzero
  exact hne rfl

end

section
variable {ι δ : Type*} [DecidableEq ι] [RealtimeDatabase δ] {D : Deployment ι}
  {evs : List (Event ι)} {rid : String}

/-- A start on its way has the time of its tap, which is past 1970. -/
theorem run_starts_ne (D : Deployment ι) (evs : List (Event ι)) (x : ι) :
    ((D.run evs : System ι δ).clients x).Writes
      fun w => ∀ rid t, w.op = .startRoom rid t → t ≠ 0 := by
  refine run_writes D (P := fun _ w => ∀ rid t, w.op = .startRoom rid t → t ≠ 0)
    (Deployment.along_iff.mpr fun pre e post _ y e' w _ hw => ?_) x
  intro rid t hop
  cases hw with
  | create => cases hop
  | join => cases hop
  | start =>
    cases hop
    exact (run_now_pos D pre).ne'

theorem applied_starts_ne (D : Deployment ι) (evs : List (Event ι)) {e : Event ι} {rid : String}
    {t : ℚ} (hop : (D.run evs : System ι δ).applied D e = some (.startRoom rid t)) : t ≠ 0 := by
  cases e with
  | clock t => cases hop
  | client x e =>
    rcases applied_cases D hop with ⟨-, w, rest, ho, hw⟩ | ⟨k, t', value, now, -, -, -, -, -, hw⟩
    · exact (run_starts_ne D evs x).1 w (by rw [ho]; exact List.mem_cons_self) rid t hw.symm
    · cases hw

/-- A room that is under way stays so. -/
theorem underway_since (hscans : D.Along (δ := δ) ScansRooms evs) {i : ℕ} {d : δ}
    (hd : (D.run evs : System ι δ).history[i]? = some d) (h : Underway rid d) :
    Since (D.run evs : System ι δ) (Underway rid) i := by
  refine run_since D ?_ hd h
  intro pre e op hpre hop hup
  obtain ⟨post, rfl⟩ := hpre
  have hfresh := run_fresh D (Along.append.mp (Along.append.mp hscans).1).1
  have hdata : HasData (D.run pre : System ι δ).db ["rooms", rid] := by
    obtain ⟨t, -, hl⟩ := hup
    exact ⟨["timeStart"], _, hl⟩
  refine hup.apply (hfresh.afterCreate hop hdata) ?_
  intro t he
  subst he
  exact applied_starts_ne D pre hop

/-- A client that is in the room sees that it is under way, whatever it has pending. -/
theorem view_underway (hscans : D.Along (δ := δ) ScansRooms evs) {x : ι}
    (hr : ((D.run evs : System ι δ).clients x).currentRID = some rid) {i : ℕ} {overlaid : Bool}
    {db d : δ} (hv : ((D.run evs : System ι δ).clients x).view ((D.run evs : System ι δ).env D x) i
      overlaid = some db) (hd : (D.run evs : System ι δ).history[i]? = some d)
    (h : Underway rid d) : Underway rid db := by
  obtain ⟨d', hd', hdb⟩ := Option.map_eq_some_iff.mp hv
  obtain rfl : d' = d := Option.some.inj (hd'.symm.trans hd)
  have hfresh := run_fresh D hscans
  cases overlaid with
  | false => rwa [← show d' = db from hdb]
  | true =>
    unfold Underway
    rw [← show ((D.run evs : System ι δ).clients x).overlay (D.user x) d' = db from hdb,
      leafAt_overlay_field hfresh _ _ (by decide)]
    refine Underway.foldl (pending_afterCreate hfresh (run_inTurn D hscans x) hr) ?_ h
    intro t ht
    obtain ⟨w, hw, hop⟩ := mem_pending (run_starts_ne D evs x) ht
    exact hw rid t hop

/-- Every lobby on a screen is attached to its room or about to be. -/
theorem run_attending (hscans : D.Along (δ := δ) ScansRooms evs) (x : ι) :
    ((D.run evs : System ι δ).clients x).Attending := by
  induction evs using List.reverseRecOn with
  | nil => exact fun id hid => (List.not_mem_nil hid).elim
  | append_singleton evs e ih =>
    obtain ⟨hscans', -⟩ := Along.concat.mp hscans
    have hfresh := run_fresh D hscans'
    rw [run_concat]
    rcases clients_step D (D.run evs : System ι δ) e x with ⟨-, hsame⟩ | ⟨e', rfl, hown⟩
    · rw [hsame]
      exact ih hscans'
    · rw [hown]
      refine (ih hscans').step (run_hasRoom D evs x) _ e' ?_
      intro id o ho hb
      obtain ⟨r, hat, hsettled⟩ := (hfresh.entered x).observers o ho
      rw [Observer.At, hb] at hat
      exact sheltered_of_at hfresh hsettled.1 hat

/-! ## The tap reaches the server -/

variable {inputs : ℕ → Event ι} {x : ι} {start : ℕ}

/-- A start of the room is the client's write number `k` on its way. -/
def Sending (rid : String) (k : ℕ) (c : Client) : Prop :=
  ∃ w t, c.outbox[k]? = some w ∧ w.op = .startRoom rid t

/-- The database takes the writes of `x`, one after the other, and refuses none of its starts
of the room. -/
structure Accepts (D : Deployment ι) (δ : Type*) [RealtimeDatabase δ] (rid : String) (x : ι)
    (inputs : ℕ → Event ι) : Prop where
  takes : ∀ n, ((D.moment δ inputs n).clients x).outbox ≠ [] → ∃ m, n ≤ m ∧
    ∃ accepted, inputs m = .client x (.deliverWrite accepted)
  accepts : ∀ n e, inputs n = .client x e → AcceptsStarts rid (D.moment δ inputs n) (.client x e)

/-- The start that the server takes makes the room under way. -/
theorem underway_of_taken (hscans : ∀ n, D.Along (δ := δ) ScansRooms (upTo inputs n))
    (haccept : Accepts D δ rid x inputs) {n : ℕ} {accepted : Bool} {w : Write} {rest : List Write}
    {t : ℚ} (he : inputs n = .client x (.deliverWrite accepted))
    (ho : ((D.moment δ inputs n).clients x).outbox = w :: rest) (hw : w.op = .startRoom rid t) :
    Underway rid (D.moment δ inputs (n + 1)).db := by
  obtain ⟨rfl, hsince⟩ := since_answered (hscans n) (haccept.accepts n _ he) rfl ho hw
  have hne : t ≠ 0 := (run_starts_ne D (upTo inputs n) x).1 w
    (by rw [show ((D.run (upTo inputs n) : System ι δ).clients x).outbox = w :: rest from ho]
        exact List.mem_cons_self) rid t hw
  rw [moment_succ, he]
  exact ⟨t, hne, hsince.1⟩

/-- A write taken from the front brings the start one place forward, or it was the start. -/
theorem sending_taken (hscans : ∀ n, D.Along (δ := δ) ScansRooms (upTo inputs n))
    (haccept : Accepts D δ rid x inputs) {k n : ℕ} {accepted : Bool}
    (h : Sending rid k ((D.moment δ inputs n).clients x))
    (he : inputs n = .client x (.deliverWrite accepted)) :
    Underway rid (D.moment δ inputs (n + 1)).db ∨
      ∃ j, j < k ∧ Sending rid j ((D.moment δ inputs (n + 1)).clients x) := by
  obtain ⟨w, t, hk, hw⟩ := h
  cases ho : ((D.moment δ inputs n).clients x).outbox with
  | nil => rw [ho] at hk; cases hk
  | cons w' rest =>
    rw [ho] at hk
    cases k with
    | zero =>
      cases hk
      exact .inl (underway_of_taken hscans haccept he ho hw)
    | succ k =>
      refine .inr ⟨k, k.lt_succ_self, w, t, ?_, hw⟩
      rw [moment_succ, he, step_client_self]
      simp only [Client.step, Client.deliverWrite, ho]
      cases accepted with
      | true => exact hk
      | false => exact hk

theorem underway_succ (hscans : ∀ n, D.Along (δ := δ) ScansRooms (upTo inputs n)) {n : ℕ}
    (h : Underway rid (D.moment δ inputs n).db) : Underway rid (D.moment δ inputs (n + 1)).db := by
  have hlast : (D.moment δ inputs n).history.getLast? = some (D.moment δ inputs n).db :=
    getLast_history D (upTo inputs n)
  rw [List.getLast?_eq_getElem?] at hlast
  exact (underway_since (hscans (n + 1)) (moment_history n.le_succ hlast) h).1

/-- A tapped start reaches the server, unless the process ends before. -/
theorem sending_leadsTo (hscans : ∀ n, D.Along (δ := δ) ScansRooms (upTo inputs n))
    (haccept : Accepts D δ rid x inputs)
    (hstay : ∀ n, start ≤ n → inputs n = .client x .relaunch →
      Underway rid (D.moment δ inputs n).db) (k : ℕ) :
    LeadsTo (fun n => start ≤ n ∧ Sending rid k ((D.moment δ inputs n).clients x))
      fun n => Underway rid (D.moment δ inputs n).db := by
  refine leadsTo_of_descent (P := fun k n => start ≤ n ∧
    Sending rid k ((D.moment δ inputs n).clients x)) (fun k => ?_) k
  have htaken : ∀ n accepted, start ≤ n → Sending rid k ((D.moment δ inputs n).clients x) →
      inputs n = .client x (.deliverWrite accepted) →
      Underway rid (D.moment δ inputs (n + 1)).db ∨ ∃ j, j < k ∧ start ≤ n + 1 ∧
        Sending rid j ((D.moment δ inputs (n + 1)).clients x) := by
    intro n accepted hn hs he
    refine (sending_taken hscans haccept hs he).imp_right fun hx => ?_
    obtain ⟨j, hj, hs'⟩ := hx
    exact ⟨j, hj, by omega, hs'⟩
  refine leadsTo_of_helpful
    (H := fun n => ∃ accepted, inputs n = .client x (.deliverWrite accepted)) ?_ ?_ ?_
  · intro n hn
    obtain ⟨hstart, w, t, hk, hw⟩ := hn
    rcases client_succ (D := D) (δ := δ) inputs x n with hsame | ⟨e, he, hown⟩
    · rw [hsame]
      exact .inl ⟨by omega, w, t, hk, hw⟩
    · have hkept : ∀ {out : List Write}, ((D.moment δ inputs n).clients x).outbox <+: out →
          (((D.moment δ inputs n).clients x).step ((D.moment δ inputs n).env D x) e).client.outbox =
            out → start ≤ n + 1 ∧ Sending rid k ((D.moment δ inputs (n + 1)).clients x) := by
        intro out hpre hout
        refine ⟨by omega, w, t, ?_, hw⟩
        obtain ⟨more, rfl⟩ := hpre
        rw [hown, hout, List.getElem?_append_left (List.getElem?_eq_some_iff.mp hk).1]
        exact hk
      cases Client.queue_step (c := (D.moment δ inputs n).clients x)
        ((D.moment δ inputs n).env D x) e with
      | same _ ho => exact .inl (hkept List.prefix_rfl ho)
      | sent _ _ ho => exact .inl (hkept (List.prefix_append _ _) ho)
      | delivered hd =>
        subst hd
        exact .inr (htaken n _ hstart ⟨w, t, hk, hw⟩ he)
      | answered _ _ ho => exact .inl (hkept List.prefix_rfl ho)
      | relaunched hl =>
        exact .inr (.inl (underway_succ hscans (hstay n hstart (hl ▸ he))))
  · intro n hn
    obtain ⟨-, w, t, hk, -⟩ := hn
    obtain ⟨m, hm, hd⟩ := haccept.takes n fun hnil => by rw [hnil] at hk; cases hk
    exact ⟨m, hm, .inr hd⟩
  · intro n hn hhelp
    obtain ⟨accepted, he⟩ := hhelp
    exact htaken n accepted hn.1 hn.2 he

/-! ## The lobby appears -/

/-- The client has the lobby `id` on its screens, and the room is its current one. -/
def OnLobby (rid : String) (id : ℕ) (c : Client) : Prop :=
  Screen.lobby id ∈ c.screens ∧ c.currentRID = some rid

instance (rid : String) (id : ℕ) (c : Client) : Decidable (OnLobby rid id c) :=
  inferInstanceAs (Decidable (_ ∧ _))

/-- A steady room stays the current one, unless the client is relaunched. -/
theorem currentRID_succ (hsteady : ∀ n, SteadyRID x (D.moment δ inputs n) (inputs n)) {n : ℕ}
    (hl : inputs n ≠ .client x .relaunch) {id : ℕ}
    (h : OnLobby rid id ((D.moment δ inputs n).clients x)) :
    ((D.moment δ inputs (n + 1)).clients x).currentRID = some rid := by
  obtain ⟨hon, hr⟩ := h
  rcases client_succ (D := D) (δ := δ) inputs x n with hsame | ⟨e, he, hown⟩
  · rw [hsame]
    exact hr
  · rw [hown]
    by_cases ha : e = .ack
    · subst ha
      simp only [Client.step]
      rcases ((D.moment δ inputs n).clients x).ack_cases with ⟨-, hack⟩ |
        ⟨w, answer, rest, -, -, hack⟩ | ⟨w, m, rest, bet, -, -, hadmit, hack⟩
      · rw [hack]; exact hr
      · rw [hack]; exact hr
      · rw [hack, Client.currentRID_presentLobby, ← hr]
        exact (hsteady n he _ hadmit ⟨id, hon⟩).symm
    · rw [(Client.follows_step _ ha fun hlaunch => hl (hlaunch ▸ he)).rid]
      exact hr

/-- A lobby that is not dismissed stays on the client's screens. -/
theorem onLobby_succ (hsteady : ∀ n, SteadyRID x (D.moment δ inputs n) (inputs n)) {n : ℕ}
    (hl : inputs n ≠ .client x .relaunch) (hd : inputs n ≠ .client x .dismiss) {id : ℕ}
    (h : OnLobby rid id ((D.moment δ inputs n).clients x)) :
    OnLobby rid id ((D.moment δ inputs (n + 1)).clients x) := by
  refine ⟨?_, currentRID_succ hsteady hl h⟩
  obtain ⟨hon, -⟩ := h
  rcases client_succ (D := D) (δ := δ) inputs x n with hsame | ⟨e, he, hown⟩
  · rw [hsame]
    exact hon
  · rw [hown]
    have hnav : ((D.moment δ inputs n).clients x).Nav := moment_nav x n
    have hscreens := Client.screens_step hnav (moment_sent x n) ((D.moment δ inputs n).env D x) e
    generalize hnew : (((D.moment δ inputs n).clients x).step
      ((D.moment δ inputs n).env D x) e).client.screens = screens at hscreens ⊢
    cases hscreens with
    | same => exact hon
    | relaunched hlaunch => exact absurd (hlaunch ▸ he) hl
    | setup _ hnil => rw [hnil] at hon; cases hon
    | back _ hscreens =>
      rw [hscreens] at hon
      exact (List.mem_cons.mp hon).resolve_left fun hx => by cases hx
    | dismissed hdis _ => exact absurd (hdis ▸ he) hd
    | lobby _ _ => exact List.mem_cons_of_mem _ hon
    | stats _ _ _ _ => exact List.mem_cons_of_mem _ hon
    | results _ => exact List.mem_cons_of_mem _ hon

/-- A lobby that is still to appear is attached, unless the game ends before. -/
theorem appears_leadsTo (hserved : Served D δ x inputs)
    (hsteady : ∀ n, SteadyRID x (D.moment δ inputs n) (inputs n))
    (hl : ∀ n, start ≤ n → inputs n ≠ .client x .relaunch)
    (hd : ∀ n, start ≤ n → inputs n ≠ .client x .dismiss) (id k : ℕ) :
    LeadsTo (fun n => (start ≤ n ∧ OnLobby rid id ((D.moment δ inputs n).clients x)) ∧
        ∃ t, ((D.moment δ inputs n).clients x).transitions[k]? = some t ∧
          t.appears = some (.lobby id))
      fun n => ((D.moment δ inputs n).clients x).Ended ∨
        ((start ≤ n ∧ OnLobby rid id ((D.moment δ inputs n).clients x)) ∧
          ((D.moment δ inputs n).clients x).Attends id) := by
  refine leadsTo_of_descent (P := fun k n =>
    (start ≤ n ∧ OnLobby rid id ((D.moment δ inputs n).clients x)) ∧
      ∃ t, ((D.moment δ inputs n).clients x).transitions[k]? = some t ∧
        t.appears = some (.lobby id)) (fun k => ?_) k
  -- an appearance serves the first transition and brings the others forward
  have hserve : ∀ n, OnLobby rid id ((D.moment δ inputs n).clients x) →
      ∀ t, ((D.moment δ inputs n).clients x).transitions[k]? = some t →
      t.appears = some (.lobby id) → inputs n = .client x .appear →
      ((D.moment δ inputs (n + 1)).clients x).Attends id ∨ ∃ j, j < k ∧
        ∃ t, ((D.moment δ inputs (n + 1)).clients x).transitions[j]? = some t ∧
          t.appears = some (.lobby id) := by
    intro n hon t hk ha he
    rw [moment_succ, he, step_client_self]
    cases hts : ((D.moment δ inputs n).clients x).transitions with
    | nil => rw [hts] at hk; cases hk
    | cons t' rest =>
      rw [hts] at hk
      cases k with
      | zero =>
        cases hk
        exact .inl (Client.attends_of_appear hts ha hon.2)
      | succ k =>
        refine .inr ⟨k, k.lt_succ_self, t, ?_, ha⟩
        simp only [Client.step, Client.transitions_appear hts]
        exact hk
  refine leadsTo_of_helpful (H := fun n => inputs n = .client x .appear) ?_ ?_ ?_
  · intro n hn
    obtain ⟨⟨hstart, hon⟩, t, hk, ha⟩ := hn
    have hon' := onLobby_succ hsteady (hl n hstart) (hd n hstart) hon
    rcases client_succ (D := D) (δ := δ) inputs x n with hsame | ⟨e, he, hown⟩
    · exact .inl ⟨⟨by omega, hon'⟩, t, by rw [hsame]; exact hk, ha⟩
    · by_cases happ : e = .appear
      · subst happ
        rcases hserve n hon t hk ha he with hatt | ⟨j, hj, hat⟩
        · exact .inr (.inl (.inr ⟨⟨by omega, hon'⟩, hatt⟩))
        · exact .inr (.inr ⟨j, hj, ⟨by omega, hon'⟩, hat⟩)
      · obtain ⟨new, hnew⟩ := Client.transitions_step (c := (D.moment δ inputs n).clients x)
          ((D.moment δ inputs n).env D x) (fun h => hl n hstart (h ▸ he)) happ
        refine .inl ⟨⟨by omega, hon'⟩, t, ?_, ha⟩
        rw [hown, hnew, List.getElem?_append_left (List.getElem?_eq_some_iff.mp hk).1]
        exact hk
  · intro n _
    obtain ⟨m, hm, hcase⟩ := hserved.appears n
    exact ⟨m, hm, hcase.imp_left fun hend => .inl (.inl hend)⟩
  · intro n hn he
    obtain ⟨⟨hstart, hon⟩, t, hk, ha⟩ := hn
    have hon' := onLobby_succ hsteady (hl n hstart) (hd n hstart) hon
    rcases hserve n hon t hk ha he with hatt | ⟨j, hj, hat⟩
    · exact .inl (.inr ⟨⟨by omega, hon'⟩, hatt⟩)
    · exact .inr ⟨j, hj, ⟨by omega, hon'⟩, hat⟩

/-- A lobby on the screens is attached, unless the game ends before. -/
theorem onLobby_leadsTo (hscans : ∀ n, D.Along (δ := δ) ScansRooms (upTo inputs n))
    (hserved : Served D δ x inputs)
    (hsteady : ∀ n, SteadyRID x (D.moment δ inputs n) (inputs n))
    (hl : ∀ n, start ≤ n → inputs n ≠ .client x .relaunch)
    (hd : ∀ n, start ≤ n → inputs n ≠ .client x .dismiss) (id : ℕ) :
    LeadsTo (fun n => start ≤ n ∧ OnLobby rid id ((D.moment δ inputs n).clients x))
      fun n => ((D.moment δ inputs n).clients x).Ended ∨
        ((start ≤ n ∧ OnLobby rid id ((D.moment δ inputs n).clients x)) ∧
          ((D.moment δ inputs n).clients x).Attends id) := by
  intro n hn
  rcases run_attending (hscans n) x id hn.2.1 with hApp | hAtt
  · obtain ⟨t, ht, ha⟩ := hApp
    obtain ⟨k, hk⟩ := List.mem_iff_getElem?.mp ht
    exact appears_leadsTo hserved hsteady hl hd id k n ⟨hn, t, hk, ha⟩
  · exact ⟨n, le_rfl, .inr ⟨hn, hAtt⟩⟩

/-- The observers of a lobby on the screens are at the room. -/
theorem Client.OneRoom.ref_of_onLobby {c : Client} (h : c.OneRoom) {id : ℕ} (hon : OnLobby rid id c)
    {o : Observer} (ho : o ∈ c.observers) (hb : o.block = .lobby id) : o.ref = roomRef rid := by
  obtain ⟨vc, rid', -, hroom⟩ := h id hon.1
  obtain rfl : rid' = rid := Option.some.inj (hroom.currentRID.symm.trans hon.2)
  have hat := hroom.lobbyObservers o ho hb
  rwa [Observer.At, hb] at hat

/-- An observer of a lobby on the screens stays attached. -/
theorem observer_succ (hscans : ∀ n, D.Along (δ := δ) ScansRooms (upTo inputs n))
    (hsteady : ∀ n, SteadyRID x (D.moment δ inputs n) (inputs n)) {n id : ℕ}
    (hl : inputs n ≠ .client x .relaunch) (hon : OnLobby rid id ((D.moment δ inputs n).clients x))
    {o : Observer} (ho : o ∈ ((D.moment δ inputs n).clients x).observers)
    (hb : o.block = .lobby id) (hsingle : o.single = false) :
    o ∈ ((D.moment δ inputs (n + 1)).clients x).observers := by
  rcases client_succ (D := D) (δ := δ) inputs x n with hsame | ⟨e, he, hown⟩
  · rw [hsame]
    exact ho
  · rw [hown]
    have hfresh := run_fresh D (hscans n)
    have hkey : IsKey rid := ((hfresh.entered x).current rid hon.2).1
    have href : o.ref = roomRef rid :=
      (run_oneRoom D (along_upTo.mpr hsteady n)).ref_of_onLobby hon ho hb
    have hshelter := sheltered_of_at (x := x) hfresh hkey href
    refine (Client.observer_step ((D.moment δ inputs n).env D x) (fun h => hl (h ▸ he)) ho
      fun _ => hshelter).resolve_right fun hx => ?_
    obtain ⟨db, -, hone⟩ := hx
    rw [hsingle] at hone
    cases hone

/-! ## The lobby opens the game -/

/-- The client has the lobby `id` in front, and the room is its current one. -/
def InLobby (rid : String) (id : ℕ) (c : Client) : Prop :=
  c.screens.head? = some (.lobby id) ∧ c.currentRID = some rid

instance (rid : String) (id : ℕ) (c : Client) : Decidable (InLobby rid id c) :=
  inferInstanceAs (Decidable (_ ∧ _))

theorem InLobby.onLobby {id : ℕ} {c : Client} (h : InLobby rid id c) : OnLobby rid id c :=
  ⟨List.mem_of_mem_head? h.1, h.2⟩

/-- A client stays in the lobby of a steady room until the game opens. -/
theorem inLobby_succ (hsteady : ∀ n, SteadyRID x (D.moment δ inputs n) (inputs n)) {n : ℕ}
    (hl : inputs n ≠ .client x .relaunch) (hd : inputs n ≠ .client x .dismiss) {id : ℕ}
    (h : InLobby rid id ((D.moment δ inputs n).clients x)) :
    InLobby rid id ((D.moment δ inputs (n + 1)).clients x) ∨
      ((D.moment δ inputs (n + 1)).clients x).screens.head? = some .stats := by
  have hr := currentRID_succ hsteady hl h.onLobby
  rcases client_succ (D := D) (δ := δ) inputs x n with hsame | ⟨e, he, hown⟩
  · rw [hsame]
    exact .inl h
  · rw [hown] at hr ⊢
    rcases Client.lobby_stay (moment_nav x n) (moment_sent x n) ((D.moment δ inputs n).env D x)
      (fun hlaunch => hl (hlaunch ▸ he)) (fun hdis => hd (hdis ▸ he)) h.1 with hfront | hstats
    · exact .inl ⟨hfront, hr⟩
    · exact .inr hstats

/-- The game is open on the client's screen, or over. -/
def Opened (c : Client) : Prop := c.screens.head? = some .stats ∨ c.Ended

/-- A room that is under way, shown to the lobby in front, opens the game. -/
theorem stats_of_shown (hscans : ∀ n, D.Along (δ := δ) ScansRooms (upTo inputs n))
    (hsteady : ∀ n, SteadyRID x (D.moment δ inputs n) (inputs n)) {n id j : ℕ} {d : δ}
    (hin : InLobby rid id ((D.moment δ inputs n).clients x)) {o : Observer}
    (hb : o.block = .lobby id) (hd : (D.moment δ inputs n).history[j]? = some d)
    (hup : Underway rid d) (hshown : Shows D δ x inputs o j n) :
    ((D.moment δ inputs (n + 1)).clients x).screens.head? = some .stats := by
  obtain ⟨k, i, overlaid, he, hk, hji, hi⟩ := hshown
  have ho := List.mem_of_getElem? hk
  obtain ⟨db, hv⟩ := view_of_lt (D := D) (x := x) hi overlaid
  obtain ⟨d', hd'⟩ : ∃ d', (D.moment δ inputs n).history[i]? = some d' :=
    ⟨_, List.getElem?_eq_getElem hi⟩
  have hsince := underway_since (hscans n) hd hup
  have hunder : Underway rid db := view_underway (hscans n) hin.2 hv hd' (hsince.2 i d' hji hd')
  have hkey : IsKey rid := (((run_fresh D (hscans n)).entered x).current rid hin.2).1
  have hstarted : started db o.ref = true := by
    rw [(run_oneRoom D (along_upTo.mpr hsteady n)).ref_of_onLobby hin.onLobby ho hb]
    exact hunder.started hkey
  rw [moment_succ, he, step_client_self]
  simp only [Client.step, Client.snapshot, hk, hv, Client.screens_deliver, hb, hstarted, hin.1,
    and_self, if_true, List.head?_cons]

/-- An attached lobby of a room that is under way opens the game. -/
theorem attends_leadsTo (hscans : ∀ n, D.Along (δ := δ) ScansRooms (upTo inputs n))
    (hserved : Served D δ x inputs)
    (hsteady : ∀ n, SteadyRID x (D.moment δ inputs n) (inputs n))
    (hl : ∀ n, start ≤ n → inputs n ≠ .client x .relaunch)
    (hd : ∀ n, start ≤ n → inputs n ≠ .client x .dismiss) {j : ℕ} {d : δ}
    (hdata : (D.moment δ inputs start).history[j]? = some d) (hup : Underway rid d) (id : ℕ)
    (o : Observer) (hb : o.block = .lobby id) (hsingle : o.single = false) :
    LeadsTo (fun n => (start ≤ n ∧ InLobby rid id ((D.moment δ inputs n).clients x)) ∧
        o ∈ ((D.moment δ inputs n).clients x).observers)
      fun n => Opened ((D.moment δ inputs n).clients x) := by
  refine leadsTo_of_helpful (H := fun n =>
    o ∉ ((D.moment δ inputs n).clients x).observers ∨ Shows D δ x inputs o j n) ?_ ?_ ?_
  · intro n hn
    obtain ⟨⟨hstart, hin⟩, ho⟩ := hn
    rcases inLobby_succ hsteady (hl n hstart) (hd n hstart) hin with hin' | hstats
    · exact .inl ⟨⟨by omega, hin'⟩,
        observer_succ hscans hsteady (hl n hstart) hin.onLobby ho hb hsingle⟩
    · exact .inr (.inl hstats)
  · intro n hn
    obtain ⟨⟨hstart, -⟩, ho⟩ := hn
    obtain ⟨m, hm, hcase⟩ := hserved.shows n o ho
    refine ⟨m, hm, ?_⟩
    rcases hcase with hend | hgone | ⟨k, i, overlaid, he, hk, hi, hlt⟩
    · exact .inl (.inr hend)
    · exact .inr (.inl hgone)
    · have hj := (List.getElem?_eq_some_iff.mp (moment_history hstart hdata)).1
      exact .inr (.inr ⟨k, i, overlaid, he, hk, by omega, hlt⟩)
  · intro n hn hhelp
    obtain ⟨⟨hstart, hin⟩, ho⟩ := hn
    exact .inl (stats_of_shown hscans hsteady hin hb (moment_history hstart hdata) hup
      (hhelp.resolve_left fun hgone => hgone ho))

/-- **The lobby opens the game**, once the room is under way. -/
theorem inLobby_leadsTo (hscans : ∀ n, D.Along (δ := δ) ScansRooms (upTo inputs n))
    (hserved : Served D δ x inputs)
    (hsteady : ∀ n, SteadyRID x (D.moment δ inputs n) (inputs n))
    (hl : ∀ n, start ≤ n → inputs n ≠ .client x .relaunch)
    (hd : ∀ n, start ≤ n → inputs n ≠ .client x .dismiss) {j : ℕ} {d : δ}
    (hdata : (D.moment δ inputs start).history[j]? = some d) (hup : Underway rid d) (id : ℕ) :
    LeadsTo (fun n => start ≤ n ∧ InLobby rid id ((D.moment δ inputs n).clients x))
      fun n => Opened ((D.moment δ inputs n).clients x) := by
  have hattends : LeadsTo (fun n =>
      (start ≤ n ∧ InLobby rid id ((D.moment δ inputs n).clients x)) ∧
        ((D.moment δ inputs n).clients x).Attends id)
      fun n => Opened ((D.moment δ inputs n).clients x) := by
    intro n hn
    obtain ⟨hin, o, ho, hb, hsingle⟩ := hn
    exact attends_leadsTo hscans hserved hsteady hl hd hdata hup id o hb hsingle n ⟨hin, ho⟩
  intro n hn
  obtain ⟨m, hm, hcase⟩ :=
    onLobby_leadsTo hscans hserved hsteady hl hd id n ⟨hn.1, hn.2.onLobby⟩
  rcases hcase with hend | ⟨-, hatt⟩
  · exact ⟨m, hm, .inr hend⟩
  -- by then the lobby is still in front, unless the game has opened
  rcases lasts_until (P := fun k => start ≤ k ∧ InLobby rid id ((D.moment δ inputs k).clients x))
    (Q := fun k => ((D.moment δ inputs k).clients x).screens.head? = some .stats)
    (fun k hk => (inLobby_succ hsteady (hl k hk.1) (hd k hk.1) hk.2).imp_left
      fun h => ⟨by omega, h⟩) hm hn with hin | ⟨k, hk, -, hstats⟩
  · obtain ⟨k, hk, hopen⟩ := hattends m ⟨hin, hatt⟩
    exact ⟨k, hm.trans hk, hopen⟩
  · exact ⟨k, hk.le, .inl hstats⟩

/-- `x` is served and shown the server's states in order, comes to the room's lobby and stays
from then on. -/
structure Plays (D : Deployment ι) (δ : Type*) [RealtimeDatabase δ] (rid : String) (x : ι)
    (inputs : ℕ → Event ι) : Prop where
  served : Served D δ x inputs
  ordered : ∀ n, D.Along (δ := δ) (InOrderAt x) (upTo inputs n)
  steady : ∀ n, SteadyRID x (D.moment δ inputs n) (inputs n)
  stays : ∃ n id, InLobby rid id ((D.moment δ inputs n).clients x) ∧
    ∀ m, n ≤ m → inputs m ≠ .client x .relaunch ∧ inputs m ≠ .client x .dismiss

/-- A player of a room that gets under way ends its game for good. -/
theorem plays_ends (hscans : ∀ n, D.Along (δ := δ) ScansRooms (upTo inputs n))
    (hclock : ∀ t, ∃ n, t ≤ (D.moment δ inputs n).now) (hplays : Plays D δ rid x inputs) {m : ℕ}
    (hup : Underway rid (D.moment δ inputs m).db) :
    ∀ᶠ n in Filter.atTop, ((D.moment δ inputs n).clients x).Ended := by
  obtain ⟨hserved, hordered, hsteady, n, id, hin, hquit⟩ := hplays
  have hl : ∀ k, n ≤ k → inputs k ≠ .client x .relaunch := fun k hk => (hquit k hk).1
  -- the lobby lasts until the room is under way, unless its game opens before
  have hopened : ∃ k, n ≤ k ∧ Opened ((D.moment δ inputs k).clients x) := by
    rcases lasts_until (P := fun k => n ≤ k ∧ InLobby rid id ((D.moment δ inputs k).clients x))
      (Q := fun k => ((D.moment δ inputs k).clients x).screens.head? = some .stats)
      (fun k hk => (inLobby_succ hsteady (hl k hk.1) (hquit k hk.1).2 hk.2).imp_left
        fun h => ⟨by omega, h⟩) (le_max_left n m) ⟨le_rfl, hin⟩ with hlobby | ⟨k, hk, -, hstats⟩
    · have hlast : (D.moment δ inputs m).history.getLast? = some (D.moment δ inputs m).db :=
        getLast_history D (upTo inputs m)
      rw [List.getLast?_eq_getElem?] at hlast
      obtain ⟨k, hk, hopen⟩ := inLobby_leadsTo hscans hserved hsteady
        (fun k (hk : max n m ≤ k) => hl k ((le_max_left _ _).trans hk))
        (fun k hk => (hquit k ((le_max_left _ _).trans hk)).2)
        (moment_history (le_max_right n m) hlast) hup id (max n m) ⟨le_rfl, hlobby.2⟩
      exact ⟨k, (le_max_left _ _).trans hk, hopen⟩
    · exact ⟨k, hk.le, .inl hstats⟩
  obtain ⟨k, hk, hopen⟩ := hopened
  have hended : ∃ k', n ≤ k' ∧ ((D.moment δ inputs k').clients x).Ended := by
    rcases hopen with hstats | hend
    · obtain ⟨k', hk', hend⟩ := stats_leadsTo hscans hordered hclock hserved hl k ⟨hk, hstats⟩
      exact ⟨k', hk.trans hk', hend⟩
    · exact ⟨k, hk, hend⟩
  obtain ⟨k', hk', hend⟩ := hended
  exact eventually_of_stable hend fun i hi => ended_stays hl (hk'.trans hi)

/-- **One tap ends the game for everyone.** Where time passes, the database takes what `y`
sends and `y` is not relaunched before the room is under way, a Start tap of `y` brings each
player of the room to its results, where they stay. -/
theorem game_over (hscans : ∀ n, D.Along (δ := δ) ScansRooms (upTo inputs n))
    (hclock : ∀ t, ∃ n, t ≤ (D.moment δ inputs n).now) {y : ι} {tap : ℕ}
    (htap : inputs tap = .client y .startRoomTUI)
    (htarget : ((D.moment δ inputs tap).clients y).startTarget = some rid)
    (haccept : Accepts D δ rid y inputs)
    (hrun : ∀ n, tap < n → inputs n = .client y .relaunch →
      Underway rid (D.moment δ inputs n).db)
    (players : Finset ι) (hplays : ∀ z ∈ players, Plays D δ rid z inputs) :
    ∀ᶠ n in Filter.atTop, ∀ z ∈ players, ((D.moment δ inputs n).clients z).Ended := by
  have hsending : Sending rid ((D.moment δ inputs tap).clients y).outbox.length
      ((D.moment δ inputs (tap + 1)).clients y) := by
    refine ⟨⟨.startRoom rid (D.moment δ inputs tap).now, none⟩, _, ?_, rfl⟩
    rw [moment_succ, htap, step_client_self]
    simp only [Client.step, Client.startRoomTUI, htarget, List.getElem?_concat_length]
    rfl
  obtain ⟨m, -, hup⟩ := sending_leadsTo hscans haccept (fun n hn => hrun n hn) _ (tap + 1)
    ⟨le_rfl, hsending⟩
  exact (Filter.eventually_all_finset players).mpr fun z hz =>
    plays_ends hscans hclock (hplays z hz) hup

end

/-- One tap of Ann's ends the game on both phones. -/
theorem game_over_both :
    ∀ᶠ n in Filter.atTop, ∀ x ∈ (Finset.univ : Finset Bool),
      ((twoPhones.moment LeafTree (thenWaits wholeGame) n).clients x).Ended := by
  have hscans : twoPhones.Along (δ := LeafTree) ScansRooms wholeGame := by decide +kernel
  have horder : ∀ x, twoPhones.Along (δ := LeafTree) (InOrderAt x) wholeGame := by decide +kernel
  have haccepts : twoPhones.Along (δ := LeafTree) (AcceptsStarts "-") wholeGame := by
    decide +kernel
  have hsteady : ∀ x, twoPhones.Along (δ := LeafTree) (SteadyRID x) wholeGame := by decide +kernel
  have hends : ∀ x, ((twoPhones.run wholeGame : System Bool LeafTree).clients x).Ended := by
    decide +kernel
  have hsent : ((twoPhones.run wholeGame : System Bool LeafTree).clients false).outbox = [] := by
    decide +kernel
  have hlobby : ∀ x, InLobby "-" 0
      ((twoPhones.run (wholeGame.take 11) : System Bool LeafTree).clients x) := by decide +kernel
  have htarget : ((twoPhones.run (wholeGame.take 11) : System Bool LeafTree).clients
      false).startTarget = some "-" := by decide +kernel
  have hquit : ∀ x, Event.client x .relaunch ∉ wholeGame ∧ Event.client x .dismiss ∉ wholeGame := by
    decide +kernel
  rw [← moment_thenWaits (by decide)] at htarget
  have htap : thenWaits wholeGame 11 = .client false .startRoomTUI := rfl
  have haccepts' := along_upTo.mp (along_thenWaits haccepts fun _ _ _ h => (by cases h))
  refine game_over (along_thenWaits hscans fun _ _ _ h => (by cases h))
    (clock_thenWaits twoPhones wholeGame) htap htarget
    ⟨fun n hn => ⟨23, ?_, true, rfl⟩, fun n e he => he ▸ haccepts' n⟩
    (fun n _ he => absurd he (thenWaits_ne (hquit false).1 n)) _ fun x _ =>
      ⟨served_thenWaits (hends x), along_thenWaits (horder x) fun _ _ _ h => (by cases h),
        along_upTo.mp (along_thenWaits (hsteady x) ?_), 11, 0, ?_, fun n _ =>
          ⟨thenWaits_ne (hquit x).1 n, thenWaits_ne (hquit x).2 n⟩⟩
  · -- the last delivery is the last event, and nothing is left to send after it
    by_contra hlate
    rw [(still_thenWaits (by simp only [wholeGame, bothInLobby]; simp; omega)).1] at hn
    exact hn hsent
  · intro s t he
    cases he
  · rw [moment_thenWaits (by decide)]
    exact hlobby x

end Unplug.App
