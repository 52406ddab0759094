import Unplug.App.GameOver
import Unplug.App.Records
import Unplug.Room.Growth

/-! # Members

Every write that the server takes adds to its rooms, so a room has for good what it once
had. A phone that is in a room since some state of the server is shown, from that state on,
exactly the room's members, whatever it has pending itself. -/
namespace Unplug.App
open Unplug.Store Unplug.Firebase Unplug.Machine Unplug.Room RealtimeDatabase

section
variable {ι δ : Type*} [DecidableEq ι] [RealtimeDatabase δ] {D : Deployment ι}
  {evs : List (Event ι)} {x : ι} {rid uid name : String}

/-! ## The server's rooms grow -/

theorem applied_key (hscans : D.Along (δ := δ) ScansRooms evs) {e : Event ι} {op : RoomOp}
    (hop : (D.run evs : System ι δ).applied D e = some op) : IsKey op.rid := by
  cases e with
  | clock t => cases hop
  | client x e => exact ((run_fresh D hscans).applied hop).1

theorem history_dated (hscans : D.Along (δ := δ) ScansRooms evs) :
    Dated (D.run evs : System ι δ).db ∧ ∀ d ∈ (D.run evs : System ι δ).history, Dated d := by
  refine run_db D dated_empty ?_
  intro pre e op hpre hop h
  obtain ⟨post, rfl⟩ := hpre
  exact dated_apply h (applied_key (Along.concat.mp (Along.append.mp hscans).1).1 hop)

theorem history_complete (hscans : D.Along (δ := δ) ScansRooms evs) (hk : IsKey rid) :
    Complete (D.run evs : System ι δ).db rid ∧
      ∀ d ∈ (D.run evs : System ι δ).history, Complete d rid := by
  refine run_db D (P := fun d : δ => Complete d rid) (complete_empty rid) ?_
  intro pre e op hpre hop h
  obtain ⟨post, rfl⟩ := hpre
  exact complete_apply hk h (applied_key (Along.concat.mp (Along.append.mp hscans).1).1 hop)

/-- Where the server has data of a room it has the room's record. -/
def Recorded (d : δ) : Prop :=
  ∀ rid, IsKey rid → HasData d ["rooms", rid] → recordsAt d rid ≠ none

theorem history_recorded (hscans : D.Along (δ := δ) ScansRooms evs) :
    Recorded (D.run evs : System ι δ).db ∧
      ∀ d ∈ (D.run evs : System ι δ).history, Recorded d := by
  refine run_db D (P := Recorded) ?_ ?_
  · intro rid _ hdata
    obtain ⟨q, l, hl⟩ := hdata
    rw [leafAt_empty] at hl
    cases hl
  · intro pre e op hpre hop h
    obtain ⟨post, rfl⟩ := hpre
    have hpre := (Along.concat.mp (Along.append.mp hscans).1).1
    have hk := applied_key hpre hop
    have hfresh := run_fresh D hpre
    intro rid hrid hdata
    rw [recordsAt_apply (history_dated hpre).1 hk]
    by_cases hr : op.rid = rid
    · subst hr
      cases e with
      | clock t => cases hop
      | client x e =>
        rcases (hfresh.applied hop).2 with hold | ⟨w, rest, -, -, rfl, hc⟩
        · obtain ⟨r, hr⟩ := Option.ne_none_iff_exists'.mp (h _ hrid hold)
          cases op with
          | _ =>
            simp only [RoomOp.rid] at hr
            simp [Records.apply, RoomOp.rid, hr]
        · cases hop' : w.op with
          | createAndJoinRoom rid room user => simp [Records.apply, RoomOp.rid]
          | _ => rw [hop'] at hc; cases hc
    · rw [records_apart _ hr]
      refine h rid hrid ?_
      obtain ⟨q, l, hl⟩ := hdata
      exact ⟨q, l, (leafAt_apply_apart _ hk (Ne.symm hr) q).symm.trans hl⟩

/-- The name of a member is its user's. -/
theorem player_of_has (hscans : D.Along (δ := δ) ScansRooms evs) {d : δ}
    (hd : d ∈ (D.run evs : System ι δ).history) {uid name : String}
    (h : (recordsAt d).Has rid uid name) : ∃ y, (D.user y).uid = uid ∧ (D.user y).name = name := by
  obtain ⟨r, e, hr, he, rfl⟩ := h
  obtain ⟨hk, -, hentry⟩ := recordsAt_eq_some.mp hr
  have hname := strAt_eq_some.mp (entryAt_eq_some ((hentry uid).trans he)).1
  rw [roomUsersRef_key hk] at hname
  obtain ⟨user, ⟨y, rfl⟩, hu, hl⟩ :=
    ((run_justified D (hscans.mono fun _ _ h => ScansRooms.scansKeys h)).2 d hd).name rid uid _
      hname
  exact ⟨y, hu, (Leaf.str.inj hl).symm⟩

/-- Every write the server takes adds to its rooms. -/
theorem applied_adds (hscans : D.Along (δ := δ) ScansRooms evs) {e : Event ι} {op : RoomOp}
    (hop : (D.run evs : System ι δ).applied D e = some op) :
    (recordsAt (D.run evs : System ι δ).db).Adds op := by
  have hhonest := applied_honest D (hscans.mono fun _ _ h => ScansRooms.scansKeys h) hop
  cases op with
  | createAndJoinRoom rid room user =>
    cases e with
    | clock t => cases hop
    | client x e =>
      have hno := (run_fresh D hscans).absent hop
      show recordsAt _ rid = none
      by_contra hsome
      obtain ⟨r, hr⟩ := Option.ne_none_iff_exists'.mp hsome
      obtain ⟨-, hroom, -⟩ := recordsAt_eq_some.mp hr
      exact hno ⟨["timeLimit"], _, (roomAt_eq_some.mp hroom).1⟩
  | joinRoomWithRID rid user =>
    intro r e' hr he
    have hlast := List.mem_of_getLast? (getLast_history (δ := δ) D evs)
    obtain ⟨y, hu, hn⟩ := player_of_has hscans hlast ⟨r, e', hr, he, rfl⟩
    obtain ⟨-, z, rfl⟩ := hhonest
    rw [← hn, D.uid_injective hu]
  | startRoom rid timestamp => exact applied_starts_ne D evs hop
  | mark rid uid timestamp => trivial

theorem history_kept (hscans : D.Along (δ := δ) ScansRooms evs) :
    (D.run evs : System ι δ).history.Pairwise fun a b => (recordsAt a).Kept (recordsAt b) := by
  refine (run_chain D (R := fun a b : δ => (recordsAt a).Kept (recordsAt b))
    (fun _ => .refl _) (fun _ _ _ h h' => h.trans h') ?_).1
  intro pre e op hpre hop
  obtain ⟨post, rfl⟩ := hpre
  have hpre := (Along.concat.mp (Along.append.mp hscans).1).1
  rw [recordsAt_apply (history_dated hpre).1 (applied_key hpre hop)]
  exact (applied_adds hpre hop).kept

/-- A member that the server has once had it has now. -/
theorem has_now (hscans : D.Along (δ := δ) ScansRooms evs) {d : δ}
    (hd : d ∈ (D.run evs : System ι δ).history) (h : (recordsAt d).Has rid uid name) :
    (recordsAt (D.run evs : System ι δ).db).Has rid uid name := by
  obtain ⟨i, hi⟩ := List.mem_iff_getElem?.mp hd
  have hlast := getLast_history (δ := δ) D evs
  rw [List.getLast?_eq_getElem?] at hlast
  refine Records.Kept.has ?_ h
  exact related_of_le (R := fun a b : δ => (recordsAt a).Kept (recordsAt b)) (fun _ => .refl _)
    (history_kept hscans) (by have := (List.getElem?_eq_some_iff.mp hi).1; omega) hi hlast

theorem has_step (hscans : D.Along (δ := δ) ScansRooms evs) (e : Event ι)
    (h : (recordsAt (D.run evs : System ι δ).db).Has rid uid name) :
    (recordsAt ((D.run evs : System ι δ).step D e).db).Has rid uid name := by
  cases hop : (D.run evs : System ι δ).applied D e with
  | none => rwa [(db_step_none D hop).1]
  | some op =>
    rw [(db_step_some D hop).1, recordsAt_apply (history_dated hscans).1 (applied_key hscans hop)]
    exact (applied_adds hscans hop).kept.has h

/-! ## Since when a phone is in a room -/

/-- From its state `n` on the server has `x` in the room. -/
def Enrolled (D : Deployment ι) (x : ι) (s : System ι δ) (rid : String) (n : ℕ) : Prop :=
  Since s (fun d => (recordsAt d).Has rid (D.user x).uid (D.user x).name) n

/-- A client is in every room it has to do with. -/
theorem run_enrolled (hscans : D.Along (δ := δ) ScansRooms evs) (x : ι) :
    ((D.run evs : System ι δ).clients x).Entered (Enrolled D x (D.run evs : System ι δ)) := by
  induction evs using List.reverseRecOn with
  | nil => exact Client.entered_launch _
  | append_singleton evs e ih =>
    have hpre := (Along.concat.mp hscans).1
    have happly : ∀ op, (D.run evs : System ι δ).applied D e = some op →
        recordsAt (op.apply (D.run evs : System ι δ).db) =
          (recordsAt (D.run evs : System ι δ).db).apply op :=
      fun op hop => recordsAt_apply (history_dated hpre).1 (applied_key hpre hop)
    have hstep : ∀ r n m, n ≤ m → Enrolled D x (D.run evs : System ι δ) r n →
        Enrolled D x ((D.run evs : System ι δ).step D e) r m := by
      intro r n m hnm h
      refine Since.step h hnm fun op hop => ?_
      rw [happly op hop]
      exact (applied_adds hpre hop).kept.has h.1
    rw [run_concat]
    rcases clients_step D (D.run evs : System ι δ) e x with ⟨-, hsame⟩ | ⟨e', rfl, hown⟩
    · rw [hsame]
      exact (ih hpre).mono fun r n h => hstep r n n le_rfl h
    · rw [hown]
      refine (ih hpre).step _ e' hstep fun w rest he ho hopen => ?_
      have hop : (D.run evs : System ι δ).applied D (.client x e') = some w.op := by
        simp [System.applied, he, Client.step, Client.deliverWrite, ho]
      have hw : w ∈ ((D.run evs : System ι δ).clients x).outbox := by
        rw [ho]
        exact List.mem_cons_self
      obtain ⟨hk, huser⟩ :=
        (run_keys D (hpre.mono fun _ _ h => ScansRooms.scansKeys h) x).2.1 w hw
      have haddr : Addressed D (D.run evs : System ι δ) w.op := ((run_fresh D hpre).writes x).1 w hw
      refine since_applied hop ?_
      rw [happly _ hop]
      cases hwop : w.op with
      | createAndJoinRoom rid room user =>
        rw [hwop] at huser
        exact huser ▸ has_of_opens (.inl ⟨rid, room, rfl⟩)
      | joinRoomWithRID rid user =>
        rw [hwop] at huser haddr
        exact huser ▸ has_of_opens
          (.inr ⟨rid, rfl, (history_recorded hpre).1 rid haddr.1 haddr.2⟩)
      | startRoom rid timestamp => rw [hwop] at hopen; cases hopen
      | mark rid uid timestamp => rw [hwop] at hopen; cases hopen

/-- A phone that shows the room is told of no state without it in the room. -/
theorem enrolled_at (hscans : D.Along (δ := δ) ScansRooms evs)
    (hr : ((D.run evs : System ι δ).clients x).currentRID = some rid) {i : ℕ}
    (hi : ((D.run evs : System ι δ).clients x).seen ≤ i) {d : δ}
    (hd : (D.run evs : System ι δ).history[i]? = some d) :
    (recordsAt d).Has rid (D.user x).uid (D.user x).name :=
  ((run_enrolled hscans x).current rid hr).2 i d hi hd

/-! ## What a phone in the room is shown -/

omit [DecidableEq ι] in
/-- Writes after the creation that enter `uid` under its name only. -/
theorem named_foldl (hk : IsKey rid) {uid name : String} {ops : List RoomOp}
    (hops : ∀ op ∈ ops, AfterCreate rid op)
    (hname : ∀ user, .joinRoomWithRID rid user ∈ ops → user.uid = uid → user.name = name) {db : δ}
    (h : ∃ e, entryAt rid uid db = some e ∧ e.name = name) :
    ∃ e, entryAt rid uid (ops.foldl RoomOp.apply db) = some e ∧ e.name = name := by
  induction ops generalizing db with
  | nil => exact h
  | cons op ops ih =>
    refine ih (fun o ho => hops o (List.mem_cons_of_mem _ ho))
      (fun user hu => hname user (List.mem_cons_of_mem _ hu)) ?_
    obtain ⟨e, he, hn⟩ := h
    rw [entryAt_apply hk (hops op List.mem_cons_self), he]
    cases hm : moveOf rid uid op with
    | none => exact ⟨e, rfl, hn⟩
    | some m =>
      rcases own_cases (show own rid uid op = true by simp [own, hm]) with
        ⟨user, rfl, hu⟩ | ⟨ts, rfl⟩
      · simp only [moveOf, hu, and_self, if_true, Option.some.injEq] at hm
        subst hm
        exact ⟨_, rfl, hname user List.mem_cons_self hu⟩
      · simp only [moveOf, and_self, if_true, Option.some.injEq] at hm
        subst hm
        refine ⟨_, rfl, ?_⟩
        split
        · exact hn
        · exact hn

omit [DecidableEq ι] in
/-- Optimistic marks touch the times of their own user only. -/
theorem leafAt_optimistic {ts : List Transaction} (hkeys : ∀ t ∈ ts, IsKey t.rid) {uid u : String}
    (db : δ) (k : String) (q : Path) (h : u ≠ uid ∨ ∃ f rest, q = f :: rest ∧ f ≠ "time") :
    leafAt (ts.foldl (Transaction.optimistic uid) db) ("rooms" :: k :: "users" :: u :: q) =
      leafAt db ("rooms" :: k :: "users" :: u :: q) := by
  induction ts generalizing db with
  | nil => rfl
  | cons t ts ih =>
    rw [List.foldl_cons, ih fun t' ht => hkeys t' (List.mem_cons_of_mem _ ht)]
    unfold Transaction.optimistic
    split
    · rcases h with hu | ⟨f, rest, rfl, hf⟩
      · exact leafAt_setTime_apart db (hkeys t List.mem_cons_self) _ _ _ fun hx => hu hx.2
      · exact leafAt_setTime_users db (hkeys t List.mem_cons_self) _ _ k u rest hf
    · rfl

omit [DecidableEq ι] in
/-- A member is a name in the tree of a room with whole entries. -/
theorem has_iff_name {d : δ} (hk : IsKey rid) (hc : Complete d rid) (hrec : Recorded d)
    {uid name : String} : (recordsAt d).Has rid uid name ↔
      strAt d (roomUsersRef rid ++ [uid, "name"]) = some name := by
  constructor
  · intro h
    obtain ⟨r, e, hr, he, rfl⟩ := h
    exact (entryAt_eq_some (((recordsAt_eq_some.mp hr).2.2 uid).trans he)).1
  · intro h
    have hleaf := strAt_eq_some.mp h
    rw [roomUsersRef_key hk] at hleaf
    obtain ⟨e, he⟩ := Option.isSome_iff_exists.mp (hc uid ⟨["name"], _, hleaf⟩)
    obtain ⟨r, hr⟩ := Option.ne_none_iff_exists'.mp
      (hrec rid hk ⟨["users", uid, "name"], _, hleaf⟩)
    refine ⟨r, e, hr, ((recordsAt_eq_some.mp hr).2.2 uid).symm.trans he, ?_⟩
    exact Option.some.inj ((entryAt_eq_some he).1.symm.trans h)

omit [DecidableEq ι] in
/-- A snapshot is a state of the server under writes and marks of the phone's own. -/
theorem view_foldl {s : System ι δ} {i : ℕ} {overlaid : Bool} {db d : δ}
    (hv : (s.clients x).view (s.env D x) i overlaid = some db) (hd : s.history[i]? = some d) :
    ∃ (ops : List RoomOp) (ts : List Transaction), (∀ op ∈ ops, op ∈ (s.clients x).pending) ∧
      (∀ t ∈ ts, t ∈ (s.clients x).transactions) ∧
      db = ts.foldl (Transaction.optimistic (D.user x).uid) (ops.foldl RoomOp.apply d) := by
  obtain ⟨d', hd', rfl⟩ := Option.map_eq_some_iff.mp hv
  obtain rfl : d' = d := Option.some.inj (hd'.symm.trans hd)
  cases overlaid with
  | false =>
    exact ⟨[], [], fun _ h => (List.not_mem_nil h).elim, fun _ h => (List.not_mem_nil h).elim, rfl⟩
  | true => exact ⟨_, _, fun _ h => h, fun _ h => h, rfl⟩

omit [DecidableEq ι] in
/-- Optimistic marks leave the names alone. -/
theorem strAt_name_optimistic {ts : List Transaction} (hkeys : ∀ t ∈ ts, IsKey t.rid)
    (hk : IsKey rid) (u uid : String) (db : δ) :
    strAt (ts.foldl (Transaction.optimistic u) db) (roomUsersRef rid ++ [uid, "name"]) =
      strAt db (roomUsersRef rid ++ [uid, "name"]) := by
  rw [roomUsersRef_key hk]
  unfold strAt
  rw [show ["rooms", rid, "users"] ++ [uid, "name"] = "rooms" :: rid :: "users" :: uid ::
    ["name"] from rfl, leafAt_optimistic hkeys _ _ _ (.inr ⟨"name", [], rfl, by decide⟩)]

/-- A member is a name in each state of the server. -/
theorem has_iff_name_history (hscans : D.Along (δ := δ) ScansRooms evs) (hk : IsKey rid) {d : δ}
    (hd : d ∈ (D.run evs : System ι δ).history) (uid name : String) :
    (recordsAt d).Has rid uid name ↔ strAt d (roomUsersRef rid ++ [uid, "name"]) = some name :=
  has_iff_name hk ((history_complete hscans hk).2 d hd) ((history_recorded hscans).2 d hd)

section
variable {i : ℕ} {overlaid : Bool} {db d : δ} {uid name : String}

/-- Whoever a snapshot names is a member. -/
theorem has_of_shown (hscans : D.Along (δ := δ) ScansRooms evs) (hk : IsKey rid)
    (hv : ((D.run evs : System ι δ).clients x).view ((D.run evs : System ι δ).env D x) i
      overlaid = some db) (hd : (D.run evs : System ι δ).history[i]? = some d)
    (hown : (recordsAt d).Has rid (D.user x).uid (D.user x).name)
    (h : strAt db (roomUsersRef rid ++ [uid, "name"]) = some name) :
    (recordsAt d).Has rid uid name := by
  have hscans' := hscans.mono fun _ _ h => ScansRooms.scansKeys h
  by_cases hu : uid = (D.user x).uid
  · subst hu
    have hleaf := strAt_eq_some.mp h
    rw [roomUsersRef_key hk] at hleaf
    obtain ⟨user, ⟨y, rfl⟩, huid, hl⟩ := (view_justified D hscans' hv).name rid _ _ hleaf
    obtain rfl := D.uid_injective huid
    rwa [Leaf.str.inj hl]
  · obtain ⟨hent, hw⟩ := run_keys D hscans' x
    refine (has_iff_name_history hscans hk (List.mem_of_getElem? hd) uid name).mpr ?_
    rw [roomUsersRef_key hk, strAt_eq_some] at h ⊢
    obtain ⟨d', hd', rfl⟩ := Option.map_eq_some_iff.mp hv
    obtain rfl : d' = d := Option.some.inj (hd'.symm.trans hd)
    cases overlaid with
    | false => exact h
    | true => exact name_of_view D hw hent hu d' h

/-- Every member is named in a snapshot. -/
theorem shown_of_has (hscans : D.Along (δ := δ) ScansRooms evs)
    (hr : ((D.run evs : System ι δ).clients x).currentRID = some rid)
    (hv : ((D.run evs : System ι δ).clients x).view ((D.run evs : System ι δ).env D x) i
      overlaid = some db) (hd : (D.run evs : System ι δ).history[i]? = some d)
    (h : (recordsAt d).Has rid uid name) :
    strAt db (roomUsersRef rid ++ [uid, "name"]) = some name := by
  obtain ⟨hent, hw⟩ := run_keys D (hscans.mono fun _ _ h => ScansRooms.scansKeys h) x
  have hk : IsKey rid := hent.current rid hr
  obtain ⟨ops, ts, hops, hts, rfl⟩ := view_foldl hv hd
  obtain ⟨y, hy, hyn⟩ := player_of_has hscans (List.mem_of_getElem? hd) h
  obtain ⟨r, e, hrec, he, rfl⟩ := h
  -- a join of the phone's own that is under way enters its user under the same name
  have hjoins : ∀ user, .joinRoomWithRID rid user ∈ ops → user.uid = uid →
      user.name = e.name := by
    intro user hjoin huid
    obtain ⟨w, ⟨-, huser⟩, hwop⟩ := mem_pending hw (hops _ hjoin)
    rw [hwop] at huser
    subst huser
    rw [← hyn, D.uid_injective (huid.trans hy.symm)]
  obtain ⟨e', he', hn⟩ := named_foldl hk
    (fun op hop => pending_afterCreate (run_fresh D hscans) (run_inTurn D hscans x) hr op
      (hops op hop)) hjoins ⟨e, ((recordsAt_eq_some.mp hrec).2.2 uid).trans he, rfl⟩
  rw [strAt_name_optimistic (fun t ht => hent.transactions t (hts t ht)) hk,
    (entryAt_eq_some he').1, hn]

/-- Nobody but members has a place in the users map of a snapshot. -/
theorem has_of_child (hscans : D.Along (δ := δ) ScansRooms evs)
    (hr : ((D.run evs : System ι δ).clients x).currentRID = some rid)
    (hv : ((D.run evs : System ι δ).clients x).view ((D.run evs : System ι δ).env D x) i
      overlaid = some db) (hd : (D.run evs : System ι δ).history[i]? = some d)
    (hown : (recordsAt d).Has rid (D.user x).uid (D.user x).name)
    (h : uid ∈ children db (roomUsersRef rid)) : ∃ name, (recordsAt d).Has rid uid name := by
  by_cases hu : uid = (D.user x).uid
  · exact ⟨_, hu ▸ hown⟩
  obtain ⟨hent, -⟩ := run_keys D (hscans.mono fun _ _ h => ScansRooms.scansKeys h) x
  have hk : IsKey rid := hent.current rid hr
  obtain ⟨ops, ts, hops, hts, hdb⟩ := view_foldl hv hd
  have hkeys : ∀ t ∈ ts, IsKey t.rid := fun t ht => hent.transactions t (hts t ht)
  rw [mem_children_iff, roomUsersRef_key hk, hdb] at h
  obtain ⟨q, l, hl⟩ := h
  rw [show ["rooms", rid, "users"] ++ [uid] ++ q = "rooms" :: rid :: "users" :: uid :: q from rfl,
    leafAt_optimistic hkeys _ _ _ (.inl hu)] at hl
  have hcomplete : Complete (ops.foldl RoomOp.apply d) rid :=
    exec_invariant (I := fun db : δ => Complete db rid)
      ((history_complete hscans hk).2 d (List.mem_of_getElem? hd))
      (fun _ _ hi hp => complete_apply hk hi hp)
      (along_of_forall (fun op hop => (pending_afterCreate (run_fresh D hscans)
        (run_inTurn D hscans x) hr op (hops op hop)).1) _)
  obtain ⟨e, he⟩ := Option.isSome_iff_exists.mp (hcomplete uid ⟨q, l, hl⟩)
  refine ⟨e.name, has_of_shown hscans hk hv hd hown ?_⟩
  rw [hdb, strAt_name_optimistic hkeys hk]
  exact (entryAt_eq_some he).1

/-- **A phone in a room is shown its members.** The names in a snapshot are those of the
room's members at the state it shows, and nobody else is in its users map. -/
theorem view_members (hscans : D.Along (δ := δ) ScansRooms evs)
    (hr : ((D.run evs : System ι δ).clients x).currentRID = some rid)
    (hv : ((D.run evs : System ι δ).clients x).view ((D.run evs : System ι δ).env D x) i
      overlaid = some db) (hd : (D.run evs : System ι δ).history[i]? = some d)
    (hown : (recordsAt d).Has rid (D.user x).uid (D.user x).name) :
    (∀ uid name, strAt db (roomUsersRef rid ++ [uid, "name"]) = some name ↔
        (recordsAt d).Has rid uid name) ∧
      ∀ uid ∈ children db (roomUsersRef rid), ∃ name, (recordsAt d).Has rid uid name := by
  have hk : IsKey rid :=
    (run_keys D (hscans.mono fun _ _ h => ScansRooms.scansKeys h) x).1.current rid hr
  exact ⟨fun uid name => ⟨has_of_shown hscans hk hv hd hown, shown_of_has hscans hr hv hd⟩,
    fun uid hchild => has_of_child hscans hr hv hd hown hchild⟩

end

/-! ## For good -/

/-- **Rooms only grow.** What a state of the server has of a room, each later one has: its
terms, a start once there is one, and every member under its name. -/
theorem rooms_kept (hscans : D.Along (δ := δ) ScansRooms evs) {i j : ℕ} (hij : i ≤ j) {d d' : δ}
    (hi : (D.run evs : System ι δ).history[i]? = some d)
    (hj : (D.run evs : System ι δ).history[j]? = some d') (r : Record)
    (hr : recordsAt d rid = some r) : ∃ r', recordsAt d' rid = some r' ∧ r.Kept r' :=
  related_of_le (fun _ => .refl _) (history_kept hscans) hij hi hj rid r hr

end

/-- Bob's join keeps what Ann's room has. -/
theorem rooms_kept_join :
    ∃ (d d' : LeafTree) (r r' : Record),
      (twoPhones.run bothInLobby : System Bool LeafTree).history[1]? = some d ∧
      (twoPhones.run bothInLobby : System Bool LeafTree).history[2]? = some d' ∧
      recordsAt d "-" = some r ∧ recordsAt d' "-" = some r' ∧ r.Kept r' := by
  have hscans : twoPhones.Along (δ := LeafTree) ScansRooms bothInLobby := by decide +kernel
  have hlater : ((twoPhones.run bothInLobby : System Bool LeafTree).history[2]?).isSome = true := by
    decide +kernel
  have hrecord : (((twoPhones.run bothInLobby : System Bool LeafTree).history[1]?).bind
      fun d => recordsAt d "-").isSome = true := by decide +kernel
  obtain ⟨d', hd'⟩ := Option.isSome_iff_exists.mp hlater
  obtain ⟨r, hr⟩ := Option.isSome_iff_exists.mp hrecord
  obtain ⟨d, hd, hr⟩ := Option.bind_eq_some_iff.mp hr
  obtain ⟨r', hr', hk⟩ := rooms_kept hscans (by decide) hd hd' r hr
  exact ⟨d, d', r, r', hd, hd', hr, hr', hk⟩

end Unplug.App
