import Unplug.App.Entered
import Unplug.App.Verdict
import Unplug.Room.Justified

/-! # No false accusation

A recorded loss goes back to a check on the loser's own phone that found the
flag still set, and the flag to an `appBackgrounded` that nothing has cleared
since. The history of a run carries this from the flag to the transaction, from
there to the server, and from every view of the server to the verdict. -/
namespace Unplug.App
open Unplug.Store Unplug.Firebase Unplug.Machine Unplug.Room RealtimeDatabase

/-! ## The flag and the check -/

namespace Client
section
variable {δ : Type*} [RealtimeDatabase δ] {c : Client}

/-- The flag is set by `appBackgrounded` only, and where it stays set the step
was neither a relaunch nor a `deviceLocked`. -/
theorem markFlag_step (h : c.Nav) (env : Env δ) (e : ClientEvent)
    (hf : (c.step env e).client.markFlag = true) :
    (e = .didEnterBackground ∧ c.delegate = true) ∨
      (c.markFlag = true ∧ e ≠ .relaunch ∧ ¬ (e = .lockcomplete ∧ c.delegate = true)) := by
  by_cases hb : e = .didEnterBackground ∧ c.delegate = true
  · exact .inl hb
  right
  have hlaunch : e ≠ .relaunch := by rintro rfl; cases hf
  have hlock : ¬ (e = .lockcomplete ∧ c.delegate = true) := by
    intro hx
    obtain ⟨rfl, hd⟩ := hx
    simp only [step, lockcomplete, hd, if_true, markFlag, deviceLocked] at hf
    cases hs : c.stats <;> simp [hs] at hf
  refine ⟨?_, hlaunch, hlock⟩
  have hs := stats_step h env e
  unfold markFlag at hf ⊢
  generalize c.stats = s at hs ⊢
  generalize (c.step env e).client.stats = s' at hs hf
  cases hs with
  | same => exact hf
  | relaunched he => exact absurd he hlaunch
  | loaded => cases hf
  | observed => exact hf
  | lost => exact hf
  | labelled => exact hf
  | ticked => exact hf
  | backgrounded he hd => exact absurd ⟨he, hd⟩ hb
  | locked => cases hf

end
end Client

section
variable {ι δ : Type*} [DecidableEq ι] [RealtimeDatabase δ]

/-- The client `u` received `appBackgrounded` as the delegate, and since then no
`deviceLocked` and no further `appBackgrounded`; its process has not ended. -/
def FlagSet (D : Deployment ι) (δ : Type*) [RealtimeDatabase δ] (evs : List (Event ι))
    (u : ι) : Prop :=
  ∃ pre mid, evs = pre ++ .client u .didEnterBackground :: mid ∧
    ((D.run pre : System ι δ).clients u).delegate = true ∧
    ∀ a e b, mid = a ++ .client u e :: b → e ≠ .relaunch ∧
      (((D.run (pre ++ .client u .didEnterBackground :: a) : System ι δ).clients u).delegate =
        true →
        e ≠ .lockcomplete ∧ e ≠ .didEnterBackground)

/-- The client `u` executed a due check whose flag was still set. -/
def MarkedBackgrounded (D : Deployment ι) (δ : Type*) [RealtimeDatabase δ] (evs : List (Event ι))
    (u : ι) : Prop :=
  ∃ pre k post ch, evs = pre ++ .client u (.check k) :: post ∧
    ((D.run pre : System ι δ).clients u).checks[k]? = some ch ∧
    ch.due ≤ (D.run pre : System ι δ).now ∧
    ((D.run pre : System ι δ).clients u).markFlag = true ∧ FlagSet D δ pre u

theorem MarkedBackgrounded.append {D : Deployment ι} {evs : List (Event ι)} {u : ι}
    (h : MarkedBackgrounded D δ evs u) (rest : List (Event ι)) :
    MarkedBackgrounded D δ (evs ++ rest) u := by
  obtain ⟨pre, k, post, ch, rfl, hch⟩ := h
  exact ⟨pre, k, post ++ rest, ch, by simp, hch⟩

/-- A step that is not `u`'s own end or reset of the flag leaves it set. -/
theorem FlagSet.concat {D : Deployment ι} {evs : List (Event ι)} {u : ι}
    (h : FlagSet D δ evs u) {e : Event ι}
    (he : ∀ e', e = .client u e' → e' ≠ .relaunch ∧
      (((D.run evs : System ι δ).clients u).delegate = true →
        e' ≠ .lockcomplete ∧ e' ≠ .didEnterBackground)) : FlagSet D δ (evs ++ [e]) u := by
  obtain ⟨pre, mid, rfl, hd, hmid⟩ := h
  refine ⟨pre, mid ++ [e], by simp, hd, fun a e' b heq => ?_⟩
  rcases List.eq_nil_or_concat b with rfl | ⟨b, e'', rfl⟩
  · obtain ⟨rfl, heq⟩ := List.append_inj' heq rfl
    exact he e' (by simpa using heq)
  · have heq' : mid ++ [e] = (a ++ .client u e' :: b) ++ [e''] := by rw [heq]; simp
    obtain ⟨rfl, -⟩ := List.append_inj' heq' rfl
    exact hmid a e' b rfl

/-- A flag that is set was set by an `appBackgrounded` that still stands. -/
theorem flagSet_of_markFlag (D : Deployment ι) (evs : List (Event ι)) (u : ι)
    (hf : ((D.run evs : System ι δ).clients u).markFlag = true) : FlagSet D δ evs u := by
  induction evs using List.reverseRecOn with
  | nil => cases hf
  | append_singleton evs e ih =>
    rw [run_concat] at hf
    rcases clients_step D (D.run evs : System ι δ) e u with ⟨hne, hsame⟩ | ⟨e', he, hown⟩
    · rw [hsame] at hf
      exact (ih hf).concat fun e' he => absurd he (hne e')
    · subst he
      rw [hown] at hf
      have hnav := (run_nav (δ := δ) D evs u).1
      by_cases hb : e' = .didEnterBackground ∧ ((D.run evs : System ι δ).clients u).delegate = true
      · obtain ⟨rfl, hd⟩ := hb
        exact ⟨evs, [], rfl, hd, fun a e' b he => by simp at he⟩
      · rcases Client.markFlag_step hnav _ e' hf with hset | ⟨hflag, hl, hlock⟩
        · exact absurd hset hb
        · refine (ih hflag).concat fun e' he => ?_
          cases he
          exact ⟨hl, fun hd => ⟨fun h => hlock ⟨h, hd⟩, fun h => hb ⟨h, hd⟩⟩⟩

/-- **A client with a transaction executed a check that found the flag set.** -/
theorem marked_of_transaction (D : Deployment ι) (evs : List (Event ι)) (u : ι)
    (ht : ((D.run evs : System ι δ).clients u).transactions ≠ []) :
    MarkedBackgrounded D δ evs u := by
  induction evs using List.reverseRecOn with
  | nil => exact absurd rfl ht
  | append_singleton evs e ih =>
    rw [run_concat] at ht
    rcases clients_step D (D.run evs : System ι δ) e u with ⟨-, hsame⟩ | ⟨e', he, hown⟩
    · rw [hsame] at ht
      exact (ih ht).append _
    · subst he
      rw [hown] at ht
      obtain ⟨t, hm⟩ := List.exists_mem_of_ne_nil _ ht
      cases Client.transaction_step _ e' hm with
      | same h0 => exact (ih (List.ne_nil_of_mem h0)).append _
      | ran value h0 => exact (ih (List.ne_nil_of_mem h0)).append _
      | returned h0 => exact (ih (List.ne_nil_of_mem h0)).append _
      | committed h0 => exact (ih (List.ne_nil_of_mem h0)).append _
      | begun he hch hdue hflag =>
        subst he
        exact ⟨evs, _, [], _, rfl, hch, hdue, hflag, flagSet_of_markFlag D evs u hflag⟩

/-! ## Honest writes -/

/-- Scanned texts are single keys, as the ids of `childByAutoId` are. -/
def ScansKeys (_ : System ι δ) (e : Event ι) : Prop :=
  ∀ c text, e = .client c (.scanQRCode text) → IsKey text

/-- A write of the client `x` about a room named by a key, entering `x` itself. -/
def OwnWrite (D : Deployment ι) (x : ι) (w : Write) : Prop :=
  IsKey w.op.rid ∧ match w.op with
    | .createAndJoinRoom _ _ user => user = D.user x
    | .joinRoomWithRID _ user => user = D.user x
    | .startRoom _ _ => True
    | .mark _ _ _ => False

/-- The rooms a client has to do with have single keys, and its writes are its own. -/
theorem run_keys (D : Deployment ι) {evs : List (Event ι)}
    (h : D.Along (δ := δ) ScansKeys evs) (x : ι) :
    ((D.run evs : System ι δ).clients x).Entered (fun r _ => IsKey r) ∧
      ((D.run evs : System ι δ).clients x).Writes (OwnWrite D x) := by
  refine exec_invariant (I := fun s : System ι δ => ∀ x,
      (s.clients x).Entered (fun r _ => IsKey r) ∧ (s.clients x).Writes (OwnWrite D x))
    (fun x => ⟨Client.entered_launch _, fun _ hw => (List.not_mem_nil hw).elim,
      fun _ ha => (List.not_mem_nil ha).elim⟩) (fun s e hi hp x => ?_) h x
  rcases clients_step D s e x with ⟨-, hsame⟩ | ⟨e', rfl, hown⟩
  · rw [hsame]
    exact hi x
  · rw [hown]
    obtain ⟨hent, hw⟩ := hi x
    refine ⟨hent.step _ e' (fun _ _ _ _ hk => hk) fun w rest _ ho _ => ?_,
      hw.step _ e' fun w hemit => ?_⟩
    · exact (hw.1 w (by rw [ho]; exact List.mem_cons_self)).1
    · cases hemit with
      | create => exact ⟨D.autoId_key _, rfl⟩
      | join => exact ⟨hp x _ rfl, rfl⟩
      | start htarget =>
        exact ⟨hent.current _ (Client.currentRID_of_startTarget htarget), trivial⟩

/-- The players of a deployment. -/
def IsPlayer (D : Deployment ι) (user : User) : Prop := ∃ x, D.user x = user

/-- The uids of the clients that have marked themselves. -/
def Guilty (D : Deployment ι) (δ : Type*) [RealtimeDatabase δ] (evs : List (Event ι))
    (uid : String) : Prop :=
  ∃ u, (D.user u).uid = uid ∧ MarkedBackgrounded D δ evs u

omit [DecidableEq ι] in
theorem honest_of_ownWrite {D : Deployment ι} {x : ι} {w : Write} (h : OwnWrite D x w)
    (guilty : String → Prop) : Honest (IsPlayer D) guilty w.op := by
  obtain ⟨hk, hw⟩ := h
  cases hop : w.op with
  | createAndJoinRoom rid room user =>
    simp only [hop] at hw hk
    exact ⟨hk, x, hw.symm⟩
  | joinRoomWithRID rid user =>
    simp only [hop] at hw hk
    exact ⟨hk, x, hw.symm⟩
  | startRoom rid ts =>
    simp only [hop] at hk
    exact hk
  | mark rid uid ts =>
    simp only [hop] at hw

/-- Every write the server applies is an honest one. -/
theorem applied_honest (D : Deployment ι) {evs : List (Event ι)}
    (h : D.Along (δ := δ) ScansKeys evs) {e : Event ι} {op : RoomOp}
    (hop : (D.run evs : System ι δ).applied D e = some op) :
    Honest (IsPlayer D) (Guilty D δ evs) op := by
  cases e with
  | clock t => cases hop
  | client c e =>
    obtain ⟨hent, hw⟩ := run_keys D h c
    rcases applied_cases D hop with ⟨-, w, rest, ho, rfl⟩ | ⟨k, t, value, now, -, ht, -, -, -, rfl⟩
    · exact honest_of_ownWrite (hw.1 w (by rw [ho]; exact List.mem_cons_self)) _
    · have hm := List.mem_of_getElem? ht
      exact ⟨hent.transactions t hm, c, rfl,
        marked_of_transaction D evs c (List.ne_nil_of_mem hm)⟩

/-- The rooms that the server's writes go to have single keys. -/
theorem writes_keys (D : Deployment ι) {evs : List (Event ι)}
    (h : D.Along (δ := δ) ScansKeys evs) : ∀ op ∈ D.writes δ evs, IsKey op.rid := by
  induction evs using List.reverseRecOn with
  | nil => exact fun op hop => (List.not_mem_nil hop).elim
  | append_singleton evs e ih =>
    obtain ⟨hpre, -⟩ := Along.concat.mp h
    rw [writes_concat]
    intro op hop
    rcases List.mem_append.mp hop with hop | hop
    · exact ih hpre op hop
    · exact (applied_honest D hpre (Option.mem_toList.mp hop)).isKey

/-- Every state the server has been in is justified. -/
theorem run_justified (D : Deployment ι) {evs : List (Event ι)}
    (h : D.Along (δ := δ) ScansKeys evs) :
    Justified (IsPlayer D) (Guilty D δ evs) (D.run evs : System ι δ).db ∧
      ∀ d ∈ (D.run evs : System ι δ).history, Justified (IsPlayer D) (Guilty D δ evs) d := by
  refine trace_invariant (I := fun evs (s : System ι δ) => D.Along (δ := δ) ScansKeys evs →
    Justified (IsPlayer D) (Guilty D δ evs) s.db ∧
      ∀ d ∈ s.history, Justified (IsPlayer D) (Guilty D δ evs) d)
    (fun _ => ⟨justified_empty, fun d hd => ?_⟩) (fun pre e hi hp hall => ?_) h h
  · rw [List.mem_singleton.mp hd]
    exact justified_empty
  · have hpre := (Along.concat.mp hall).1
    obtain ⟨hdb, hhist⟩ := hi hpre
    have hmono : ∀ uid, Guilty D δ pre uid → Guilty D δ (pre ++ [e]) uid :=
      fun uid ⟨u, hu, hm⟩ => ⟨u, hu, hm.append _⟩
    cases hop : (D.run pre : System ι δ).applied D e with
    | none =>
      obtain ⟨h1, h2⟩ := db_step_none D hop
      refine ⟨?_, fun d hd => ?_⟩
      · rw [show (System.step D (exec (System.step D) (System.init D) pre) e).db = _ from h1]
        exact hdb.mono hmono
      · rw [show (System.step D (exec (System.step D) (System.init D) pre) e).history = _
          from h2] at hd
        exact (hhist d hd).mono hmono
    | some op =>
      obtain ⟨h1, h2⟩ := db_step_some D hop
      have hnew := (hdb.apply (applied_honest D hpre hop)).mono hmono
      refine ⟨?_, fun d hd => ?_⟩
      · rw [show (System.step D (exec (System.step D) (System.init D) pre) e).db = _ from h1]
        exact hnew
      · rw [show (System.step D (exec (System.step D) (System.init D) pre) e).history = _
          from h2] at hd
        rcases List.mem_append.mp hd with hd | hd
        · exact (hhist d hd).mono hmono
        · exact List.mem_singleton.mp hd ▸ hnew

/-! ## What a client can be shown -/

theorem justified_foldl {players : User → Prop} {guilty : String → Prop} {ops : List RoomOp}
    (hops : ∀ op ∈ ops, Honest players guilty op) {db : δ} (h : Justified players guilty db) :
    Justified players guilty (ops.foldl RoomOp.apply db) := by
  induction ops generalizing db with
  | nil => exact h
  | cons op ops ih =>
    exact ih (fun o ho => hops o (List.mem_cons_of_mem _ ho))
      (h.apply (hops op List.mem_cons_self))

/-- The optimistic marks of a client's transactions. -/
theorem justified_marks {players : User → Prop} {guilty : String → Prop} {uid : String}
    {ts : List Transaction} (hkeys : ∀ t ∈ ts, IsKey t.rid) (hg : ts ≠ [] → guilty uid) {db : δ}
    (h : Justified players guilty db) :
    Justified players guilty (ts.foldl (Transaction.optimistic uid) db) := by
  have hguilty : ∀ t ∈ ts, guilty uid := fun t ht => hg (List.ne_nil_of_mem ht)
  clear hg
  induction ts generalizing db with
  | nil => exact h
  | cons t ts ih =>
    refine ih (fun u hu => hkeys u (List.mem_cons_of_mem _ hu)) ?_
      fun u hu => hguilty u (List.mem_cons_of_mem _ hu)
    unfold Transaction.optimistic
    split
    · exact h.setTime (hkeys t List.mem_cons_self) (hguilty t List.mem_cons_self) _
    · exact h

theorem mem_pending {c : Client} {P : Write → Prop} (h : c.Writes P) {op : RoomOp}
    (hop : op ∈ c.pending) : ∃ w, P w ∧ w.op = op := by
  rcases List.mem_append.mp hop with hop | hop
  · obtain ⟨a, ha, rfl⟩ := List.mem_map.mp hop
    exact ⟨a.1, h.2 a ha, rfl⟩
  · obtain ⟨w, hw, rfl⟩ := List.mem_map.mp hop
    exact ⟨w, h.1 w hw, rfl⟩

/-- Every snapshot a client can be shown is justified, its own pending writes
and optimistic marks included. -/
theorem view_justified (D : Deployment ι) {evs : List (Event ι)}
    (h : D.Along (δ := δ) ScansKeys evs) {x : ι} {i : ℕ} {overlaid : Bool} {db : δ}
    (hv : ((D.run evs : System ι δ).clients x).view ((D.run evs : System ι δ).env D x) i
      overlaid = some db) : Justified (IsPlayer D) (Guilty D δ evs) db := by
  obtain ⟨hent, hw⟩ := run_keys D h x
  obtain ⟨d, hd, hdb⟩ := Option.map_eq_some_iff.mp hv
  have hserver := (run_justified D h).2 d (List.mem_of_getElem? hd)
  cases overlaid with
  | false => exact hdb ▸ hserver
  | true =>
    rw [← hdb]
    refine justified_marks (fun t ht => hent.transactions t ht) (fun hne =>
      ⟨x, rfl, marked_of_transaction D evs x hne⟩) (justified_foldl (fun op hop => ?_) hserver)
    obtain ⟨w, hown, rfl⟩ := mem_pending hw hop
    exact honest_of_ownWrite hown _

omit [DecidableEq ι] in
/-- A client's own writes put no other user's name into its view. -/
theorem name_of_view (D : Deployment ι) {c : Client} {x : ι} (hw : c.Writes (OwnWrite D x))
    (hent : c.Entered (fun r _ => IsKey r)) {k u : String} (hu : u ≠ (D.user x).uid) (db : δ)
    {l : Leaf} (hl : leafAt (c.overlay (D.user x) db) ["rooms", k, "users", u, "name"] = some l) :
    leafAt db ["rooms", k, "users", u, "name"] = some l := by
  have hmarks : ∀ (ts : List Transaction) (db : δ), (∀ t ∈ ts, IsKey t.rid) →
      leafAt (ts.foldl (Transaction.optimistic (D.user x).uid) db)
        ["rooms", k, "users", u, "name"] = leafAt db ["rooms", k, "users", u, "name"] := by
    intro ts
    induction ts with
    | nil => intro db _; rfl
    | cons t ts ih =>
      intro db hk
      rw [List.foldl_cons, ih _ fun v hv => hk v (List.mem_cons_of_mem _ hv)]
      unfold Transaction.optimistic
      split
      · exact leafAt_setTime_users db (hk t List.mem_cons_self) _ _ k u [] (by decide)
      · rfl
  have hops : ∀ (ops : List RoomOp) (db : δ), (∀ op ∈ ops, ∃ w, OwnWrite D x w ∧ w.op = op) →
      leafAt (ops.foldl RoomOp.apply db) ["rooms", k, "users", u, "name"] = some l →
      leafAt db ["rooms", k, "users", u, "name"] = some l := by
    intro ops
    induction ops with
    | nil => intro db _ h; exact h
    | cons op ops ih =>
      intro db hown h
      have hrest := ih _ (fun o ho => hown o (List.mem_cons_of_mem _ ho)) h
      obtain ⟨w, ⟨hk, huser⟩, rfl⟩ := hown op List.mem_cons_self
      cases hop : w.op with
      | createAndJoinRoom rid room user =>
        simp only [hop, RoomOp.rid] at hk huser hrest
        rw [apply_create, leafAt_create_users db hk, huser, if_neg hu] at hrest
        split at hrest
        · cases hrest
        · exact hrest
      | joinRoomWithRID rid user =>
        simp only [hop, RoomOp.rid] at hk huser hrest
        rw [apply_join, leafAt_join_users db hk, huser, if_neg fun h => hu h.2] at hrest
        exact hrest
      | startRoom rid ts =>
        simp only [hop, RoomOp.rid] at hk hrest
        rwa [apply_start, leafAt_start_users db hk] at hrest
      | mark rid uid ts => simp only [hop] at huser
  unfold Client.overlay at hl
  rw [hmarks _ _ fun t ht => hent.transactions t ht] at hl
  exact hops _ db (fun op hop => mem_pending hw hop) hl

/-! ## The verdict -/

/-- The server has shown `x` in the room at some time. -/
def WasIn (D : Deployment ι) (s : System ι δ) (x : ι) (rid : String) : Prop :=
  ∃ d ∈ s.history, strAt d ["rooms", rid, "users", (D.user x).uid, "name"] = some (D.user x).name

theorem WasIn.step {D : Deployment ι} {s : System ι δ} {x : ι} {rid : String}
    (h : WasIn D s x rid) (e : Event ι) : WasIn D (s.step D e) x rid := by
  obtain ⟨d, hd, hn⟩ := h
  exact ⟨d, mem_history_step D e hd, hn⟩

omit [DecidableEq ι] in
/-- An accepted create or join puts its client into the room. -/
theorem strAt_of_opens {D : Deployment ι} {x : ι} {w : Write} (hw : OwnWrite D x w)
    (ho : Client.opens w.op = true) (db : δ) :
    strAt (w.op.apply db) ["rooms", w.op.rid, "users", (D.user x).uid, "name"] =
      some (D.user x).name := by
  obtain ⟨hk, huser⟩ := hw
  rw [strAt_eq_some]
  cases hop : w.op with
  | createAndJoinRoom rid room user =>
    simp only [hop, RoomOp.rid] at hk huser
    subst huser
    rw [apply_create, leafAt_create_users db hk]
    simp [RoomOp.rid, userEntry]
  | joinRoomWithRID rid user =>
    simp only [hop, RoomOp.rid] at hk huser
    subst huser
    rw [apply_join, leafAt_join_users db hk]
    simp [RoomOp.rid, userEntry]
  | startRoom rid ts => simp [hop, Client.opens] at ho
  | mark rid uid ts => simp [hop, Client.opens] at ho

/-- A client has been in every room it has to do with. -/
theorem run_wasIn (D : Deployment ι) {evs : List (Event ι)}
    (h : D.Along (δ := δ) ScansKeys evs) (x : ι) :
    ((D.run evs : System ι δ).clients x).Entered
      (fun r _ => WasIn D (D.run evs : System ι δ) x r) := by
  induction evs using List.reverseRecOn generalizing x with
  | nil => exact Client.entered_launch _
  | append_singleton evs e ih =>
    have hpre := (Along.concat.mp h).1
    have hold := ih hpre
    rw [run_concat]
    rcases clients_step D (D.run evs : System ι δ) e x with ⟨-, hsame⟩ | ⟨e', he, hstep⟩
    · rw [hsame]
      exact (hold x).mono fun r _ hw => hw.step _
    · subst he
      rw [hstep]
      refine (hold x).step _ e' (fun r _ _ _ hw => hw.step _) fun w rest he ho hopen => ?_
      have hown := (run_keys D hpre x).2.1 w (by rw [ho]; exact List.mem_cons_self)
      have hop : (D.run evs : System ι δ).applied D (.client x e') = some w.op := by
        simp [System.applied, he, Client.step, Client.deliverWrite, ho]
      refine ⟨w.op.apply (D.run evs : System ι δ).db, ?_, strAt_of_opens hown hopen _⟩
      rw [(db_step_some D hop).2]
      simp

/-- **No false accusation.** Where the ids that are scanned are single keys, a
name that a client's listener handed to the results screen is that of a user
whom the server has shown in the observed room, and that user's own client had
executed a check that found the flag still set. -/
theorem accused_marked (D : Deployment ι) {evs : List (Event ι)}
    (hscans : D.Along (δ := δ) ScansKeys evs) {x : ι} {name : String} {bet : Option ℚ}
    (hcall : Call.performToResults (some name) bet ∈ ((D.run evs : System ι δ).clients x).calls) :
    ∃ vc rid u, ((D.run evs : System ι δ).clients x).stats = some vc ∧
      vc.observedRID = some rid ∧ (D.user u).name = name ∧ WasIn D (D.run evs : System ι δ) u rid ∧
      MarkedBackgrounded D δ evs u := by
  let Q : List (Event ι) → ι → String → String → Prop := fun evs _ r n =>
    ∃ u, (D.user u).name = n ∧ WasIn D (D.run evs : System ι δ) u r ∧ MarkedBackgrounded D δ evs u
  have hnamed : ((D.run evs : System ι δ).clients x).Named (Q evs x) := run_named D
    (fun pre e _ r n _ hq => ?_) (fun pre e y vc r o db hpre hd hb hs hr hn => ?_) x
  · obtain ⟨vc, rid, hs, hr, u, hu, hin, hm⟩ := hnamed.calls name bet hcall
    exact ⟨vc, rid, u, hs, hr, hu, hin, hm⟩
  · obtain ⟨u, hu, hin, hm⟩ := hq
    exact ⟨u, hu, by rw [run_concat]; exact hin.step e, hm.append _⟩
  · -- the snapshot that named the loser
    obtain ⟨post, rfl⟩ := hpre
    have halong : D.Along (δ := δ) ScansKeys pre :=
      (Along.concat.mp (Along.append.mp hscans).1).1
    obtain ⟨hent, hw⟩ := run_keys D halong y
    have hwas := run_wasIn D halong y
    obtain ⟨k, i, overlaid, -, -, hv⟩ := hd
    have hk : IsKey r := hent.observed vc r hs hr
    obtain ⟨uid, -, hname, ⟨user, ⟨u, hu⟩, huid, hun⟩, ⟨u', huid', hm⟩⟩ :=
      (view_justified D halong hv).loser hk hn
    obtain rfl : u' = u := D.uid_injective (by rw [huid', hu, huid])
    refine ⟨u', by rw [hu, hun], ?_, hm⟩
    by_cases hself : uid = (D.user y).uid
    · obtain rfl : u' = y := D.uid_injective (huid'.trans hself)
      exact hwas.observed vc r hs hr
    · obtain ⟨d, hd, hdb⟩ := Option.map_eq_some_iff.mp hv
      refine ⟨d, List.mem_of_getElem? hd, ?_⟩
      rw [huid', hu, hun, strAt_eq_some]
      rw [strAt_eq_some] at hname
      cases overlaid with
      | false => exact hdb ▸ hname
      | true => exact name_of_view D hw hent hself d (hdb ▸ hname)

end

/-- Ann starts a room, leaves the app for good, and her own listener names her. -/
def annLeaves : List (Event Bool) :=
  [.client false .showSetup, .client false (.editBetAmount (some 5)),
    .client false (.createTUI 60), .client false (.deliverWrite true), .client false .ack,
    .client false .appear, .client false .appear, .client false .startRoomTUI,
    .client false (.deliverWrite true), .client false .ack, .client false (.snapshot 0 2 false),
    .client false .appear, .client false .didEnterBackground, .clock 1001,
    .client false (.check 0), .client false (.runBlock 0 (some (.num 0))),
    .client false (.compare 0), .client false (.snapshot 2 3 false)]

theorem accused_marked_ann :
    ∃ vc rid u, ((twoPhones.run annLeaves : System Bool LeafTree).clients false).stats = some vc ∧
      vc.observedRID = some rid ∧ (twoPhones.user u).name = "Ann" ∧
      WasIn twoPhones (twoPhones.run annLeaves : System Bool LeafTree) u rid ∧
      MarkedBackgrounded twoPhones LeafTree annLeaves u :=
  accused_marked twoPhones
    (by simp [Deployment.Along, Machine.Along, ScansKeys, annLeaves])
    (show Call.performToResults (some "Ann") (some 5) ∈
        ((twoPhones.run annLeaves : System Bool LeafTree).clients false).calls by decide +kernel)

end Unplug.App
