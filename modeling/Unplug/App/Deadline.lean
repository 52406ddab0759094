import Unplug.App.OneRoom
import Unplug.App.Pending
import Unplug.App.Verdict

/-! # Agreement on the deadline

A stats controller reads the room's info once, after its lobby has seen the room
started. The limit it reads is the one the room was created with. The start is
what the last Start tap before the read wrote, so it is one for all members
exactly as far as their taps write one time. -/
namespace Unplug.App
open Unplug.Store Unplug.Firebase Unplug.Machine Unplug.Room RealtimeDatabase

/-! ## The label -/

namespace Client
section
variable {δ : Type*} [RealtimeDatabase δ] {c : Client}

/-- What a labelled controller holds it held before, or the read brought it just now. -/
theorem labelled_step (h : c.Nav) (env : Env δ) (e : ClientEvent) {vc' : RoomStatsViewController}
    (hs : (c.step env e).client.stats = some vc') (hl : vc'.labelled) :
    ∃ vc, c.stats = some vc ∧
      ((vc.labelled ∧ vc'.startTime = vc.startTime ∧ vc'.timeLimit = vc.timeLimit) ∨
        ∃ o db bet, Delivers env c e o db ∧ o.block = .setUpLabel ∧
          getInfoForRID db o.ref = some (bet, vc'.startTime, vc'.timeLimit)) := by
  have hstep := stats_step h env e
  rw [hs] at hstep
  generalize c.stats = stats at hstep
  cases hstep with
  | same => exact ⟨vc', rfl, .inl ⟨hl, rfl, rfl⟩⟩
  | loaded => exact absurd rfl hl
  | observed => exact ⟨_, rfl, .inl ⟨hl, rfl, rfl⟩⟩
  | lost => exact ⟨_, rfl, .inl ⟨hl, rfl, rfl⟩⟩
  | labelled hd hb hi => exact ⟨_, rfl, .inr ⟨_, _, _, hd, hb, hi⟩⟩
  | @ticked vc he ht =>
    refine ⟨vc, rfl, .inl ⟨?_, rfl, rfl⟩⟩
    rw [RoomStatsViewController.labelled, ht]
    decide
  | backgrounded => exact ⟨_, rfl, .inl ⟨hl, rfl, rfl⟩⟩
  | locked => exact ⟨_, rfl, .inl ⟨hl, rfl, rfl⟩⟩

/-- The stats controller is above a lobby. -/
theorem Nav.lobby_of_stats (h : c.Nav) (hs : c.stats.isSome = true) :
    ∃ id, Screen.lobby id ∈ c.screens := by
  have hmem : Screen.stats ∈ c.screens := h.stats_iff.mpr hs
  have hshape := h.shape
  generalize c.screens = screens at hmem hshape
  cases hshape with
  | base hb => exact absurd hmem hb.no_stats
  | lobby id hb => exact ⟨id, List.mem_cons_self⟩
  | stats id hb => exact ⟨id, by simp⟩
  | results id hb => exact ⟨id, by simp⟩

/-- Where a client is in one room, what is read for the label is the current room. -/
theorem OneRoom.ref_of_label (h : c.OneRoom) (hnav : c.Nav) {rid : String}
    (hr : c.currentRID = some rid) (hs : c.stats.isSome = true) {o : Observer}
    (ho : o ∈ c.observers) (hb : o.block = .setUpLabel) : o.ref = roomRef rid := by
  obtain ⟨id, hid⟩ := hnav.lobby_of_stats hs
  obtain ⟨vc, rid', -, hroom⟩ := h id hid
  obtain rfl : rid = rid' := Option.some.inj (hr.symm.trans hroom.currentRID)
  have hat := hroom.statsObservers o ho (.inr hb)
  rw [Observer.At, hb] at hat
  exact hat

/-- So is what the lobby in front observes. -/
theorem OneRoom.ref_of_lobby (h : c.OneRoom) {rid : String} (hr : c.currentRID = some rid) {id : ℕ}
    (hfront : c.screens.head? = some (.lobby id)) {o : Observer} (ho : o ∈ c.observers)
    (hb : o.block = .lobby id) : o.ref = roomRef rid := by
  obtain ⟨vc, rid', -, hroom⟩ := h id (List.mem_of_mem_head? hfront)
  obtain rfl : rid = rid' := Option.some.inj (hr.symm.trans hroom.currentRID)
  have hat := hroom.lobbyObservers o ho hb
  rw [Observer.At, hb] at hat
  exact hat

end
end Client

section
variable {ι δ : Type*} [DecidableEq ι] [RealtimeDatabase δ]

/-- Under an open lobby a steady rid is what it was before the step. -/
theorem currentRID_before (D : Deployment ι) {s : System ι δ} {x : ι} {e : ClientEvent}
    {rid : String} (hopen : ∃ id, Screen.lobby id ∈ (s.clients x).screens)
    (hsteady : SteadyRID x s (.client x e))
    (hr : ((s.step D (.client x e)).clients x).currentRID = some rid) :
    (s.clients x).currentRID = some rid := by
  rw [step_client_self] at hr
  by_cases hl : e = .relaunch
  · subst hl
    cases hr
  by_cases ha : e = .ack
  · subst ha
    simp only [Client.step] at hr
    rcases (s.clients x).ack_cases with ⟨-, hack⟩ | ⟨w, answer, rest, -, -, hack⟩ |
      ⟨w, n, rest, bet, -, -, hadmit, hack⟩
    · rwa [hack] at hr
    · rwa [hack] at hr
    · rw [hack, Client.currentRID_presentLobby] at hr
      cases hr
      exact hsteady rfl _ hadmit hopen
  · rwa [(Client.follows_step (s.env D x) ha hl).rid] at hr

/-! ## The limit -/

/-- A room keeps its limit and its stake from the first state that has the room. -/
theorem run_fixed (D : Deployment ι) {evs : List (Event ι)}
    (hscans : D.Along (δ := δ) ScansRooms evs) {rid : String} {d : δ}
    (hd : d ∈ (D.run evs : System ι δ).history) (hdata : HasData d ["rooms", rid]) {f : String}
    (hf : Fixed f) :
    leafAt (D.run evs : System ι δ).db ["rooms", rid, f] = leafAt d ["rooms", rid, f] := by
  let R : δ → δ → Prop := fun a b => HasData a ["rooms", rid] →
    HasData b ["rooms", rid] ∧ leafAt b ["rooms", rid, f] = leafAt a ["rooms", rid, f]
  have hchain : ∀ d ∈ (D.run evs : System ι δ).history, R d (D.run evs : System ι δ).db := by
    refine (run_chain D (R := R) ?_ ?_ ?_).2
    · intro d hd
      exact ⟨hd, rfl⟩
    · intro a b c hab hbc ha
      obtain ⟨hb, he⟩ := hab ha
      obtain ⟨hc, he'⟩ := hbc hb
      exact ⟨hc, he'.trans he⟩
    · intro pre e op hpre hop hdata
      obtain ⟨post, rfl⟩ := hpre
      have hafter := (run_fresh D (Along.append.mp (Along.append.mp hscans).1).1).afterCreate
        hop hdata
      exact ⟨hasData_apply hafter.1 (.inl hdata), leafAt_fixed_apply hafter _ hf⟩
  exact (hchain d hd hdata).2

/-- A labelled client has the limit of its room. -/
theorem label_timeLimit (D : Deployment ι) {evs : List (Event ι)} {x : ι}
    (hscans : D.Along (δ := δ) ScansRooms evs) (horder : D.Along (δ := δ) InOrder evs)
    (hsteady : D.Along (δ := δ) (SteadyRID x) evs) {rid : String} {vc : RoomStatsViewController}
    (hvc : ((D.run evs : System ι δ).clients x).stats = some vc) (hl : vc.labelled)
    (hr : ((D.run evs : System ι δ).clients x).currentRID = some rid) :
    vc.timeLimit = numAt (D.run evs : System ι δ).db ["rooms", rid, "timeLimit"] := by
  induction evs using List.reverseRecOn generalizing vc with
  | nil => cases hvc
  | append_singleton evs e ih =>
    obtain ⟨hscans', hscan⟩ := Along.concat.mp hscans
    obtain ⟨horder', hord⟩ := Along.concat.mp horder
    obtain ⟨hsteady', hst⟩ := Along.concat.mp hsteady
    have hfresh := run_fresh D hscans'
    -- no step changes the limit of a room that the client is in
    have hkeep : ((D.run evs : System ι δ).clients x).currentRID = some rid →
        numAt (D.run (evs ++ [e]) : System ι δ).db ["rooms", rid, "timeLimit"] =
          numAt (D.run evs : System ι δ).db ["rooms", rid, "timeLimit"] := by
      intro hr
      obtain ⟨-, hdata, -⟩ := (hfresh.entered x).current rid hr
      unfold numAt
      rw [run_concat]
      cases hop : (D.run evs : System ι δ).applied D e with
      | none => rw [(db_step_none D hop).1]
      | some op =>
        rw [(db_step_some D hop).1, leafAt_fixed_apply (hfresh.afterCreate hop hdata) _ (by decide)]
    rcases clients_step D (D.run evs : System ι δ) e x with ⟨-, hsame⟩ | ⟨e', rfl, hown⟩
    · rw [run_concat, hsame] at hvc hr
      rw [hkeep hr]
      exact ih hscans' horder' hsteady' hvc hl hr
    · obtain ⟨hnav, -⟩ := run_nav (δ := δ) D evs x
      have hvc' := hvc
      rw [run_concat, hown] at hvc'
      obtain ⟨v, hv, hcase⟩ := Client.labelled_step hnav _ _ hvc' hl
      have hopen := hnav.lobby_of_stats (by rw [hv]; rfl)
      have hr' : ((D.run evs : System ι δ).clients x).currentRID = some rid := by
        rw [run_concat] at hr
        exact currentRID_before D hopen hst hr
      rw [hkeep hr']
      rcases hcase with ⟨hlv, -, hlim⟩ | ⟨o, db, bet, ⟨k, i, overlaid, rfl, hk, hview⟩, hb, hinfo⟩
      · rw [hlim]
        exact ih hscans' horder' hsteady' hv hlv hr'
      · have href := (run_oneRoom D hsteady').ref_of_label hnav hr' (by rw [hv]; rfl)
          (List.mem_of_getElem? hk) hb
        obtain ⟨hkey, -, hsince⟩ := (hfresh.entered x).current rid hr'
        have hlimit : Fixed "timeLimit" := by decide
        obtain ⟨d, hd, hlim⟩ := view_fixed hfresh
          (pending_afterCreate hfresh (run_inTurn D hscans' x) hr') hview hlimit
        have hdata : HasData d ["rooms", rid] := hsince i d (hord _ rfl) hd
        rw [href, roomRef_key hkey, getInfoForRID] at hinfo
        split at hinfo
        · simp only [Option.some.injEq, Prod.mk.injEq] at hinfo
          rw [← hinfo.2.2]
          unfold numAt
          simp only [List.cons_append, List.nil_append]
          rw [hlim, run_fixed D hscans' (List.mem_of_getElem? hd) hdata hlimit]
        · cases hinfo

/-! ## The start -/

/-- Who taps Start in a step. -/
def Event.taps : Event ι → Option ι
  | .client c .startRoomTUI => some c
  | _ => none

/-- Whose oldest write the server refuses in a step. -/
def Event.refuses : Event ι → Option ι
  | .client c (.deliverWrite false) => some c
  | _ => none

/-- The Start taps in the room come at one time. -/
def TapsAt (rid : String) (timestamp : ℚ) (s : System ι δ) (e : Event ι) : Prop :=
  ∀ c ∈ e.taps, (s.clients c).startTarget = some rid → s.now = timestamp

/-- The server does not refuse a start of the room. -/
def AcceptsStarts (rid : String) (s : System ι δ) (e : Event ι) : Prop :=
  ∀ c ∈ e.refuses, ∀ w ∈ (s.clients c).outbox.head?, startedAt rid w.op = none

instance (rid : String) (timestamp : ℚ) (s : System ι δ) (e : Event ι) :
    Decidable (TapsAt rid timestamp s e) :=
  inferInstanceAs (Decidable (∀ c ∈ e.taps, _ → _))

instance (rid : String) (s : System ι δ) (e : Event ι) : Decidable (AcceptsStarts rid s e) :=
  inferInstanceAs (Decidable (∀ c ∈ e.refuses, ∀ w ∈ (s.clients c).outbox.head?, _))

/-- The room has this start. -/
def StartIs (rid : String) (timestamp : ℚ) (db : δ) : Prop :=
  leafAt db ["rooms", rid, "timeStart"] = some (.num timestamp)

section
variable {D : Deployment ι} {evs : List (Event ι)} {rid : String} {timestamp : ℚ}

/-- Rooms are created without a start, and the starts on their way have the one time. -/
theorem run_starts (htaps : D.Along (δ := δ) (TapsAt rid timestamp) evs) (x : ι) :
    ((D.run evs : System ι δ).clients x).Writes fun w =>
      (∀ t, w.op = .startRoom rid t → t = timestamp) ∧
        ∀ room user, w.op = .createAndJoinRoom rid room user → room.timeStart = 0 := by
  refine run_writes D (P := fun _ w => (∀ t, w.op = .startRoom rid t → t = timestamp) ∧
    ∀ room user, w.op = .createAndJoinRoom rid room user → room.timeStart = 0) ?_ x
  refine htaps.mono ?_
  intro s e htap y e' w he hw
  subst he
  cases hw with
  | create =>
    refine ⟨fun t ht => (by cases ht), ?_⟩
    intro room user hop
    cases hop
    rfl
  | join => exact ⟨fun t ht => (by cases ht), fun room user hop => (by cases hop)⟩
  | start htarget =>
    refine ⟨?_, fun room user hop => (by cases hop)⟩
    intro t ht
    cases ht
    exact htap y rfl htarget

/-- So do the starts the server applies. -/
theorem applied_starts (htaps : D.Along (δ := δ) (TapsAt rid timestamp) evs) {e : Event ι}
    {op : RoomOp} (hop : (D.run evs : System ι δ).applied D e = some op) :
    (∀ t, op = .startRoom rid t → t = timestamp) ∧
      ∀ room user, op = .createAndJoinRoom rid room user → room.timeStart = 0 := by
  cases e with
  | clock t => cases hop
  | client x e =>
    rcases applied_cases D hop with ⟨-, w, rest, ho, rfl⟩ | ⟨k, t, value, now, -, -, -, -, -, rfl⟩
    · exact (run_starts htaps x).1 w (by rw [ho]; exact List.mem_cons_self)
    · exact ⟨fun t ht => (by cases ht), fun room user h => (by cases h)⟩

/-- A write keeps the start that all Start taps write. -/
theorem startIs_apply (hscans : D.Along (δ := δ) ScansRooms evs)
    (htaps : D.Along (δ := δ) (TapsAt rid timestamp) evs) {e : Event ι} {op : RoomOp}
    (hop : (D.run evs : System ι δ).applied D e = some op)
    (h : StartIs rid timestamp (D.run evs : System ι δ).db) :
    StartIs rid timestamp (op.apply (D.run evs : System ι δ).db) := by
  have hdata : HasData (D.run evs : System ι δ).db ["rooms", rid] := ⟨["timeStart"], _, h⟩
  have hafter := (run_fresh D hscans).afterCreate hop hdata
  rw [StartIs, leafAt_timeStart_apply hafter]
  cases hs : startedAt rid op with
  | none => exact h
  | some t =>
    rw [(applied_starts htaps hop).1 t (startedAt_eq_some.mp hs)]
    rfl

/-- In every state a room that is there has not started, or at the one time. -/
theorem run_start_or (hkey : IsKey rid) (hscans : D.Along (δ := δ) ScansRooms evs)
    (htaps : D.Along (δ := δ) (TapsAt rid timestamp) evs) :
    ∀ d ∈ (D.run evs : System ι δ).history, HasData d ["rooms", rid] →
      StartIs rid 0 d ∨ StartIs rid timestamp d := by
  refine (run_db D (P := fun d : δ => HasData d ["rooms", rid] →
    StartIs rid 0 d ∨ StartIs rid timestamp d) ?_ ?_).2
  · intro hdata
    obtain ⟨q, l, hl⟩ := hdata
    rw [leafAt_empty] at hl
    cases hl
  · intro pre e op hpre hop hd hdata
    obtain ⟨post, rfl⟩ := hpre
    have hfresh := run_fresh D (Along.append.mp (Along.append.mp hscans).1).1
    have hstarts := applied_starts (Along.append.mp (Along.append.mp htaps).1).1 hop
    by_cases hbefore : HasData (D.run pre : System ι δ).db ["rooms", rid]
    · have hafter := hfresh.afterCreate hop hbefore
      unfold StartIs at hd ⊢
      rw [leafAt_timeStart_apply hafter]
      cases hs : startedAt rid op with
      | none => exact hd hbefore
      | some t => exact .inr (by rw [hstarts.1 t (startedAt_eq_some.mp hs)]; rfl)
    · -- only its creation gives the room data
      cases e with
      | clock t => cases hop
      | client x e =>
        obtain ⟨hk, hcase⟩ := hfresh.applied hop
        have hrid : op.rid = rid := by
          by_contra hne
          obtain ⟨q, l, hl⟩ := hdata
          exact hbefore ⟨q, l, (leafAt_apply_apart _ hk (Ne.symm hne) q).symm.trans hl⟩
        obtain ⟨w, rest, -, -, rfl, hc⟩ := hcase.resolve_left (by rw [hrid]; exact hbefore)
        cases hw : w.op with
        | createAndJoinRoom rid' room user =>
          obtain rfl : rid' = rid := by rw [hw] at hrid; exact hrid
          left
          have hzero := hstarts.2 room user hw
          rw [StartIs, apply_create]
          exact (leafAt_create_field _ hkey room user rid' ["timeStart"]).trans (by
            simp [roomValue, Room.toDict, hzero])
        | joinRoomWithRID => rw [hw] at hc; cases hc
        | startRoom => rw [hw] at hc; cases hc
        | mark => rw [hw] at hc; cases hc

/-! ## What a client knows of the start -/

/-- The client shows the start: it has written it and the server has not refused
it, or the server has had it since a state the client knows. -/
def Begun (rid : String) (timestamp : ℚ) (s : System ι δ) (c : Client) : Prop :=
  .startRoom rid timestamp ∈ c.pending ∨ Since s (StartIs rid timestamp) c.seen

/-- Of the room it is in, an answered start is on the server, a client that has left
the lobby shows the start, and a label holds it. -/
structure Timed (rid : String) (timestamp : ℚ) (s : System ι δ) (c : Client) : Prop where
  acks : ∀ a ∈ c.acks, a.1.op = .startRoom rid timestamp →
    ∃ n, a.2 = some n ∧ Since s (StartIs rid timestamp) n
  begun : c.stats.isSome = true → c.currentRID = some rid → Begun rid timestamp s c
  label : ∀ vc, c.stats = some vc → vc.labelled → c.currentRID = some rid →
    vc.startTime = some timestamp

omit [DecidableEq ι] in
theorem timed_launch (rid : String) (timestamp : ℚ) (s : System ι δ) :
    Timed rid timestamp s .launch where
  acks _ h := (List.not_mem_nil h).elim
  begun h := by cases h
  label _ h := by cases h

end

omit [DecidableEq ι] in
theorem Timed.keep {rid : String} {timestamp : ℚ} {s s' : System ι δ} {c : Client}
    (h : Timed rid timestamp s c)
    (hkeep : ∀ n, Since s (StartIs rid timestamp) n → Since s' (StartIs rid timestamp) n) :
    Timed rid timestamp s' c where
  acks a ha hop := by
    obtain ⟨n, hn, hsince⟩ := h.acks a ha hop
    exact ⟨n, hn, hkeep n hsince⟩
  begun hs hr := (h.begun hs hr).imp_right (hkeep _)
  label := h.label

omit [DecidableEq ι] in
/-- A client that shows the start reads it. -/
theorem Begun.view {D : Deployment ι} {s : System ι δ} {x : ι} {rid : String} {timestamp : ℚ}
    (h : Begun rid timestamp s (s.clients x)) (hfresh : Fresh D s)
    (hturn : (s.clients x).InTurn) (hr : (s.clients x).currentRID = some rid)
    (hone : ∀ t, .startRoom rid t ∈ (s.clients x).pending → t = timestamp) {i : ℕ} {db : δ}
    (hi : (s.clients x).seen ≤ i) (hv : (s.clients x).view (s.env D x) i true = some db) :
    StartIs rid timestamp db := by
  obtain ⟨d, hd, hstart⟩ := view_timeStart hfresh hturn hr hone hv
  rw [StartIs, hstart]
  rcases h with hpending | hsince
  · exact if_pos hpending
  · split
    · rfl
    · exact hsince.2 i d hi hd

omit [DecidableEq ι] in
theorem seen_snapshot {env : Env δ} {c : Client} {k i : ℕ} {overlaid : Bool} {o : Observer} {db : δ}
    (hk : c.observers[k]? = some o) (hv : c.view env i overlaid = some db) :
    i ≤ (c.snapshot env k i overlaid).seen := by
  unfold Client.snapshot
  rw [hk, hv]
  exact le_max_right _ _

section
variable {D : Deployment ι} {evs : List (Event ι)} {rid : String} {timestamp : ℚ} {x : ι}

/-- A pending write of a client is one it has sent. -/
theorem pending_starts (htaps : D.Along (δ := δ) (TapsAt rid timestamp) evs) :
    ∀ t, .startRoom rid t ∈ ((D.run evs : System ι δ).clients x).pending → t = timestamp := by
  intro t ht
  obtain ⟨w, hw, hop⟩ := mem_pending (run_starts htaps x) ht
  exact hw.1 t hop

/-- Leaving the lobby, a client shows the start that its lobby was shown. -/
theorem begun_of_started (hscans : D.Along (δ := δ) ScansRooms evs)
    (htaps : D.Along (δ := δ) (TapsAt rid timestamp) evs)
    (hr : ((D.run evs : System ι δ).clients x).currentRID = some rid) {i : ℕ} {db : δ}
    (hi : ((D.run evs : System ι δ).clients x).seen ≤ i)
    (hv : ((D.run evs : System ι δ).clients x).view ((D.run evs : System ι δ).env D x) i true =
      some db) (hstarted : started db (roomRef rid) = true) :
    .startRoom rid timestamp ∈ ((D.run evs : System ι δ).clients x).pending ∨
      Since (D.run evs : System ι δ) (StartIs rid timestamp) i := by
  have hfresh := run_fresh D hscans
  obtain ⟨hkey, -, hsince⟩ := (hfresh.entered x).current rid hr
  obtain ⟨d, hd, hstart⟩ :=
    view_timeStart hfresh (run_inTurn D hscans x) hr (pending_starts htaps) hv
  by_cases hp : .startRoom rid timestamp ∈ ((D.run evs : System ι δ).clients x).pending
  · exact .inl hp
  right
  rw [if_neg hp] at hstart
  have hne : leafAt db ["rooms", rid, "timeStart"] ≠ some (.num 0) := by
    have := (started_iff.mp hstarted).2
    rwa [roomRef_key hkey] at this
  refine run_since D ?_ hd ?_
  · intro pre e op hpre hop hs
    obtain ⟨post, rfl⟩ := hpre
    exact startIs_apply (Along.append.mp (Along.append.mp hscans).1).1
      (Along.append.mp (Along.append.mp htaps).1).1 hop hs
  · have hor := run_start_or hkey hscans htaps d (List.mem_of_getElem? hd) (hsince i d hi hd)
    rcases hor with hz | ht
    · exact absurd (hstart.trans hz) hne
    · exact ht

/-- A server state that has the start keeps it through the step. -/
theorem since_startIs_step (hscans : D.Along (δ := δ) ScansRooms evs)
    (htaps : D.Along (δ := δ) (TapsAt rid timestamp) evs) (e : Event ι) {n m : ℕ} (hnm : n ≤ m)
    (h : Since (D.run evs : System ι δ) (StartIs rid timestamp) n) :
    Since ((D.run evs : System ι δ).step D e) (StartIs rid timestamp) m :=
  h.step hnm fun _ hop => startIs_apply hscans htaps hop h.1

/-- A start that is answered in a step is on the server from then on. -/
theorem since_answered (hscans : D.Along (δ := δ) ScansRooms evs) {e : ClientEvent}
    (hacc : AcceptsStarts rid (D.run evs : System ι δ) (.client x e)) {w : Write}
    {rest : List Write} {accepted : Bool} (he : e = .deliverWrite accepted)
    (ho : ((D.run evs : System ι δ).clients x).outbox = w :: rest)
    (hop : w.op = .startRoom rid timestamp) :
    accepted = true ∧ Since ((D.run evs : System ι δ).step D (.client x e))
      (StartIs rid timestamp) (D.run evs : System ι δ).history.length := by
  subst he
  cases accepted with
  | false =>
    have hnone := hacc x rfl w (by rw [ho]; rfl)
    rw [startedAt_eq_some.mpr hop] at hnone
    cases hnone
  | true =>
    have happlied : (D.run evs : System ι δ).applied D (.client x (.deliverWrite true)) =
        some w.op := by
      simp [System.applied, Client.step, Client.deliverWrite, ho]
    obtain ⟨hk, -⟩ := ((run_fresh D hscans).writes x).1 w (by rw [ho]; exact List.mem_cons_self)
    have hafter : AfterCreate rid w.op := by
      refine ⟨hk, ?_⟩
      intro room user he
      rw [hop] at he
      cases he
    refine ⟨rfl, since_applied happlied ?_⟩
    rw [StartIs, leafAt_timeStart_apply hafter, startedAt_eq_some.mpr hop]
    rfl

/-- The step that loads the stats controller shows the client the start. -/
theorem begun_loaded (hscans : D.Along (δ := δ) ScansRooms evs)
    (htaps : D.Along (δ := δ) (TapsAt rid timestamp) evs)
    (hsteady : D.Along (δ := δ) (SteadyRID x) evs) {e : ClientEvent}
    (hord : InOrder (D.run evs : System ι δ) (.client x e))
    (hshown : (Event.client x e).overlaid = true)
    (hnone : ((D.run evs : System ι δ).clients x).stats = none)
    (hs : (((D.run evs : System ι δ).step D (.client x e)).clients x).stats.isSome = true)
    (hr : (((D.run evs : System ι δ).step D (.client x e)).clients x).currentRID = some rid) :
    Begun rid timestamp ((D.run evs : System ι δ).step D (.client x e))
      (((D.run evs : System ι δ).step D (.client x e)).clients x) := by
  obtain ⟨hnav, -⟩ := run_nav (δ := δ) D evs x
  obtain ⟨vc', hvc'⟩ := Option.isSome_iff_exists.mp hs
  rw [step_client_self] at hvc' hr ⊢
  have hstep := Client.stats_step hnav ((D.run evs : System ι δ).env D x) e
  rw [hnone, hvc'] at hstep
  cases hstep with
  | loaded bet hd hb hstarted hfront =>
    obtain ⟨k, i, overlaid, rfl, hk, hv⟩ := hd
    obtain rfl : overlaid = true := hshown
    obtain ⟨n, -, hlink⟩ := Client.link_snapshot (c := (D.run evs : System ι δ).clients x)
      ((D.run evs : System ι δ).env D x) k i true
    have hr' : ((D.run evs : System ι δ).clients x).currentRID = some rid :=
      (congrArg Link.currentRID hlink).symm.trans hr
    have href := (run_oneRoom D hsteady).ref_of_lobby hr' hfront (List.mem_of_getElem? hk) hb
    rw [href] at hstarted
    rcases begun_of_started hscans htaps hr' (hord _ rfl) hv hstarted with hp | hsince
    · refine .inl ?_
      rcases Client.pending_step (c := (D.run evs : System ι δ).clients x)
        ((D.run evs : System ι δ).env D x) (e := .snapshot k i true) (by simp) with
        hq | ⟨w, hw, -⟩ | ⟨he, -⟩
      · exact hq ▸ hp
      · cases hw
      · cases he
    · exact .inr (since_startIs_step hscans htaps _ (seen_snapshot hk hv) hsince)

/-- A client that shows the start still does after a step other than a relaunch. -/
theorem begun_step (hscans : D.Along (δ := δ) ScansRooms evs)
    (htaps : D.Along (δ := δ) (TapsAt rid timestamp) evs) {e : ClientEvent} (hl : e ≠ .relaunch)
    (hacks : ∀ a ∈ ((D.run evs : System ι δ).clients x).acks, a.1.op = .startRoom rid timestamp →
      ∃ n, a.2 = some n ∧ Since (D.run evs : System ι δ) (StartIs rid timestamp) n)
    (h : Begun rid timestamp (D.run evs : System ι δ) ((D.run evs : System ι δ).clients x)) :
    Begun rid timestamp ((D.run evs : System ι δ).step D (.client x e))
      (((D.run evs : System ι δ).step D (.client x e)).clients x) := by
  rw [step_client_self]
  generalize henv : (D.run evs : System ι δ).env D x = env
  generalize hc : (D.run evs : System ι δ).clients x = c at *
  rcases h with hp | hsince
  · by_cases ha : e = .ack
    · subst ha
      cases Client.queue_step (c := c) env .ack with
      | same hsame ho => exact .inl (by unfold Client.pending; rw [hsame, ho]; exact hp)
      | sent hw => cases hw
      | delivered he => cases he
      | relaunched he => cases he
      | @answered a _ hrest ho =>
        unfold Client.pending at hp
        rw [hrest] at hp
        rcases List.mem_append.mp hp with hp | hp
        · rcases List.mem_cons.mp hp with hp | hp
          · -- the answer that is read is the start's own
            obtain ⟨w, answer⟩ := a
            obtain ⟨n, hn, hsince⟩ :=
              hacks (w, answer) (by rw [hrest]; exact List.mem_cons_self) hp.symm
            obtain rfl : answer = some n := hn
            exact .inr (since_startIs_step hscans htaps _ (Client.seen_ack hrest) hsince)
          · exact .inl (List.mem_append_left _ hp)
        · refine .inl (List.mem_append_right _ ?_)
          rw [ho]
          exact hp
    · rcases Client.pending_step (c := c) env ha with hq | ⟨w, -, hq⟩ | ⟨he, -⟩
      · exact .inl (hq ▸ hp)
      · exact .inl (by rw [hq]; exact List.mem_append_left _ hp)
      · exact absurd he hl
  · exact .inr (since_startIs_step hscans htaps _ (Client.seen_step env hl) hsince)

/-- **What a step of a client does to what it knows of the start.** -/
theorem timed_step (hscans : D.Along (δ := δ) ScansRooms evs)
    (htaps : D.Along (δ := δ) (TapsAt rid timestamp) evs)
    (hsteady : D.Along (δ := δ) (SteadyRID x) evs) {e : ClientEvent}
    (hord : InOrder (D.run evs : System ι δ) (.client x e))
    (hshown : (Event.client x e).overlaid = true)
    (hacc : AcceptsStarts rid (D.run evs : System ι δ) (.client x e))
    (hst : SteadyRID x (D.run evs : System ι δ) (.client x e))
    (h : Timed rid timestamp (D.run evs : System ι δ) ((D.run evs : System ι δ).clients x)) :
    Timed rid timestamp ((D.run evs : System ι δ).step D (.client x e))
      (((D.run evs : System ι δ).step D (.client x e)).clients x) := by
  have hfresh := run_fresh D hscans
  obtain ⟨hnav, -⟩ := run_nav (δ := δ) D evs x
  have hbefore : ((D.run evs : System ι δ).clients x).stats.isSome = true →
      (((D.run evs : System ι δ).step D (.client x e)).clients x).currentRID = some rid →
      ((D.run evs : System ι δ).clients x).currentRID = some rid :=
    fun hs hr => currentRID_before D (hnav.lobby_of_stats hs) hst hr
  by_cases hl : e = .relaunch
  · subst hl
    rw [step_client_self]
    exact timed_launch _ _ _
  refine ⟨?_, ?_, ?_⟩
  · intro a ha hop
    rw [step_client_self] at ha
    rcases Client.acks_step _ e ha with ha | ⟨w, rest, accepted, he, ho, rfl⟩
    · obtain ⟨n, hn, hs⟩ := h.acks a ha hop
      exact ⟨n, hn, since_startIs_step hscans htaps _ le_rfl hs⟩
    · obtain ⟨rfl, hs⟩ := since_answered hscans hacc he ho hop
      exact ⟨_, rfl, hs⟩
  · intro hs hr
    cases hstats : ((D.run evs : System ι δ).clients x).stats with
    | none => exact begun_loaded hscans htaps hsteady hord hshown hstats hs hr
    | some vc =>
      have hsome : ((D.run evs : System ι δ).clients x).stats.isSome = true := by rw [hstats]; rfl
      exact begun_step hscans htaps hl h.acks (h.begun hsome (hbefore hsome hr))
  · intro vc' hvc' hlab hr
    rw [step_client_self] at hvc'
    obtain ⟨v, hv, hcase⟩ := Client.labelled_step hnav _ _ hvc' hlab
    have hsome : ((D.run evs : System ι δ).clients x).stats.isSome = true := by rw [hv]; rfl
    have hr' := hbefore hsome hr
    rcases hcase with ⟨hlv, hstart, -⟩ | ⟨o, db, bet, ⟨k, i, overlaid, rfl, hk, hview⟩, hb, hinfo⟩
    · rw [hstart]
      exact h.label v hv hlv hr'
    · -- the read shows what the client already knows
      obtain rfl : overlaid = true := hshown
      have href := (run_oneRoom D hsteady).ref_of_label hnav hr' hsome (List.mem_of_getElem? hk) hb
      have hstart := (h.begun hsome hr').view hfresh (run_inTurn D hscans x) hr'
        (pending_starts htaps) (hord _ rfl) hview
      rw [href, roomRef_key ((hfresh.entered x).current rid hr').1, getInfoForRID] at hinfo
      split at hinfo
      · simp only [Option.some.injEq, Prod.mk.injEq] at hinfo
        rw [← hinfo.2.1]
        exact numAt_eq_some.mpr hstart
      · cases hinfo

/-- A labelled client has the start that the Start taps of its room write. -/
theorem run_timed (hscans : D.Along (δ := δ) ScansRooms evs)
    (htaps : D.Along (δ := δ) (TapsAt rid timestamp) evs)
    (horder : D.Along (δ := δ) InOrder evs)
    (hshown : D.Along (δ := δ) (fun _ e => e.overlaid = true) evs)
    (hacc : D.Along (δ := δ) (AcceptsStarts rid) evs)
    (hsteady : D.Along (δ := δ) (SteadyRID x) evs) :
    Timed rid timestamp (D.run evs : System ι δ) ((D.run evs : System ι δ).clients x) := by
  induction evs using List.reverseRecOn with
  | nil => exact timed_launch _ _ _
  | append_singleton evs e ih =>
    obtain ⟨hscans', -⟩ := Along.concat.mp hscans
    obtain ⟨htaps', -⟩ := Along.concat.mp htaps
    obtain ⟨horder', hord⟩ := Along.concat.mp horder
    obtain ⟨hshown', hsh⟩ := Along.concat.mp hshown
    obtain ⟨hacc', hac⟩ := Along.concat.mp hacc
    obtain ⟨hsteady', hst⟩ := Along.concat.mp hsteady
    have hold := ih hscans' htaps' horder' hshown' hacc' hsteady'
    rw [run_concat]
    rcases clients_step D (D.run evs : System ι δ) e x with ⟨-, hsame⟩ | ⟨e', rfl, -⟩
    · rw [hsame]
      exact hold.keep fun n hs => since_startIs_step hscans' htaps' _ le_rfl hs
    · exact timed_step hscans' htaps' hsteady' hord hsh hac hst hold

end

end

/-- One Start tap, which both phones read. -/
def oneStart : List (Event Bool) :=
  bothInLobby ++ [.client false .startRoomTUI, .client false (.deliverWrite true),
    .client true (.snapshot 0 3 true), .client true (.snapshot 1 3 true),
    .client false (.snapshot 0 3 true), .client false (.snapshot 1 3 true)]

end Unplug.App
