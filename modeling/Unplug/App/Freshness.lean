import Unplug.App.Accusation
import Unplug.Room.Ledger

/-! # Every room is created once, before anything else is written to it

`childByAutoId` gives each creation a rid of its own, and only the answer to a
create or a join makes a rid the current one. So where phones scan the codes of
rooms that exist, a creation finds its room without data, every other write finds
the room there, and a room that a client has to do with never goes away. -/
namespace Unplug.App
open Unplug.Store Unplug.Firebase Unplug.Machine Unplug.Room RealtimeDatabase

/-- The rooms that the writes in the outbox will create. -/
def Client.creations (c : Client) : List String := c.outbox.filterMap fun w => Client.created w.op

section
variable {ι δ : Type*} [RealtimeDatabase δ]

/-- The server has the room from the state number `n` on. -/
def Settled (s : System ι δ) (rid : String) (n : ℕ) : Prop :=
  IsKey rid ∧ Since s (fun d => HasData d ["rooms", rid]) n

/-- The text that a phone scans in a step. -/
def Event.scanned : Event ι → Option String
  | .client _ (.scanQRCode text) => some text
  | _ => none

/-- Scanned codes are those of rooms on the server. -/
def ScansRooms (s : System ι δ) (e : Event ι) : Prop :=
  ∀ text ∈ e.scanned, IsKey text ∧ hasValue s.db (roomRef text) = true

instance (s : System ι δ) (e : Event ι) : Decidable (ScansRooms s e) :=
  inferInstanceAs (Decidable (∀ text ∈ e.scanned, _))

/-- A write that is sent creates a room with an id of its own, or goes to a room
on the server. -/
def Addressed (D : Deployment ι) (s : System ι δ) (op : RoomOp) : Prop :=
  IsKey op.rid ∧
    match Client.created op with
    | some rid => ∃ n < s.nextAutoId, D.autoId n = rid
    | none => HasData s.db ["rooms", op.rid]

structure Fresh (D : Deployment ι) (s : System ι δ) : Prop where
  unused : ∀ n, s.nextAutoId ≤ n → ¬ HasData s.db ["rooms", D.autoId n]
  creations : ∀ x, ∀ rid ∈ (s.clients x).creations, ¬ HasData s.db ["rooms", rid]
  nodup : ∀ x, (s.clients x).creations.Nodup
  apart : ∀ x y, ∀ rid ∈ (s.clients x).creations, rid ∈ (s.clients y).creations → x = y
  writes : ∀ x, (s.clients x).Writes fun w => Addressed D s w.op
  entered : ∀ x, (s.clients x).Entered (Settled s)

theorem fresh_init (D : Deployment ι) : Fresh D (System.init D : System ι δ) where
  unused _ _ h := by
    obtain ⟨q, l, hl⟩ := h
    rw [show (System.init D : System ι δ).db = RealtimeDatabase.empty from rfl, leafAt_empty] at hl
    cases hl
  creations _ _ h := (List.not_mem_nil h).elim
  nodup _ := List.nodup_nil
  apart _ _ _ h := (List.not_mem_nil h).elim
  writes _ := ⟨fun _ h => (List.not_mem_nil h).elim, fun _ h => (List.not_mem_nil h).elim⟩
  entered _ := Client.entered_launch _

/-! ## The write of a step -/

/-- Every write the server applies goes to a room by one key, and only a
creation can be the first one there. -/
theorem Fresh.applied {D : Deployment ι} {s : System ι δ} (h : Fresh D s) {x : ι} {e : ClientEvent}
    {op : RoomOp} (hop : s.applied D (.client x e) = some op) :
    IsKey op.rid ∧ (HasData s.db ["rooms", op.rid] ∨
      ∃ w rest, e = .deliverWrite true ∧ (s.clients x).outbox = w :: rest ∧ op = w.op ∧
        Client.created w.op = some op.rid) := by
  rcases applied_cases D hop with ⟨he, w, rest, ho, rfl⟩ | ⟨k, t, value, now, -, ht, -, -, -, rfl⟩
  · obtain ⟨hk, hw⟩ := (h.writes x).1 w (by rw [ho]; exact List.mem_cons_self)
    refine ⟨hk, ?_⟩
    cases hc : Client.created w.op with
    | none =>
      rw [hc] at hw
      exact .inl hw
    | some rid => exact .inr ⟨w, rest, he, ho, rfl, by rw [hc, Client.rid_of_created hc]⟩
  · obtain ⟨hk, hdata, -⟩ := (h.entered x).transactions t (List.mem_of_getElem? ht)
    exact ⟨hk, .inl hdata⟩

/-- A creation finds no data at its room. -/
theorem Fresh.absent {D : Deployment ι} {s : System ι δ} (h : Fresh D s) {x : ι} {e : ClientEvent}
    {rid : String} {room : Room} {user : User}
    (hop : s.applied D (.client x e) = some (.createAndJoinRoom rid room user)) :
    ¬ HasData s.db ["rooms", rid] := by
  rcases applied_cases D hop with ⟨-, w, rest, ho, hw⟩ | ⟨k, t, value, now, -, -, -, -, -, hw⟩
  · refine h.creations x rid ?_
    refine List.mem_filterMap.mpr ⟨w, by rw [ho]; exact List.mem_cons_self, ?_⟩
    rw [← hw]
    rfl
  · cases hw

/-- What the server applies comes after the creation of each room that is there. -/
theorem Fresh.afterCreate {D : Deployment ι} {s : System ι δ} (h : Fresh D s) {e : Event ι}
    {op : RoomOp} (hop : s.applied D e = some op) {rid : String}
    (hd : HasData s.db ["rooms", rid]) : AfterCreate rid op := by
  cases e with
  | clock t => cases hop
  | client x e =>
    refine ⟨(h.applied hop).1, ?_⟩
    intro room user he
    subst he
    exact h.absent hop hd

variable [DecidableEq ι]

theorem Fresh.hasData_step {D : Deployment ι} {s : System ι δ} (h : Fresh D s) {x : ι}
    {e : ClientEvent} {rid : String} (hd : HasData s.db ["rooms", rid]) :
    HasData (s.step D (.client x e)).db ["rooms", rid] := by
  cases hop : s.applied D (.client x e) with
  | none => rwa [(db_step_none D hop).1]
  | some op =>
    rw [(db_step_some D hop).1]
    exact hasData_apply (h.applied hop).1 (.inl hd)

/-- A room without data gets some by its creation only, which was the oldest
write of its client. -/
theorem Fresh.created_step {D : Deployment ι} {s : System ι δ} (h : Fresh D s) {x : ι}
    {e : ClientEvent} {rid : String} (hn : ¬ HasData s.db ["rooms", rid])
    (hd : HasData (s.step D (.client x e)).db ["rooms", rid]) :
    (s.clients x).creations = rid :: ((s.step D (.client x e)).clients x).creations := by
  cases hop : s.applied D (.client x e) with
  | none =>
    rw [(db_step_none D hop).1] at hd
    exact absurd hd hn
  | some op =>
    rw [(db_step_some D hop).1] at hd
    obtain ⟨hk, hcase⟩ := h.applied hop
    have hrid : rid = op.rid := by
      by_contra hne
      obtain ⟨q, l, hl⟩ := hd
      exact hn ⟨q, l, (leafAt_apply_apart s.db hk hne q).symm.trans hl⟩
    subst hrid
    obtain ⟨w, rest, he, ho, -, hc⟩ := hcase.resolve_left hn
    rw [step_client_self]
    simp [Client.creations, ho, he, Client.step, Client.deliverWrite, hc]

/-- What a step does to the creations on their way. -/
theorem Client.creations_step {c : Client} (env : Env δ) (e : ClientEvent) {next : ℕ}
    {autoId : ℕ → String} (hid : env.autoId = autoId next) :
    (c.step env e).client.creations = c.creations ++ [autoId next] ∨
      (c.step env e).client.creations <:+ c.creations := by
  unfold creations
  cases queue_step (c := c) env e with
  | same _ ho => exact .inr (by rw [ho])
  | sent hw _ ho _ =>
    rw [ho, List.filterMap_append]
    cases hw with
    | create => exact .inl (by simp [created, hid])
    | join => exact .inr (by simp [created])
    | start => exact .inr (by simp [created])
  | delivered _ _ ho =>
    right
    rw [ho, List.filterMap_cons]
    split
    · exact List.suffix_rfl
    · exact List.suffix_cons _ _
  | answered _ _ ho => exact .inr (by rw [ho])
  | relaunched _ _ ho => exact .inr (by rw [ho]; exact List.nil_suffix)

omit [DecidableEq ι] in
/-- No write that is on its way goes to a room with an id that is not given out yet. -/
theorem Fresh.rid_ne {D : Deployment ι} {s : System ι δ} (h : Fresh D s) {op : RoomOp}
    (hop : Addressed D s op) {n : ℕ} (hn : s.nextAutoId ≤ n) : op.rid ≠ D.autoId n := by
  intro he
  obtain ⟨-, hop⟩ := hop
  cases hc : Client.created op with
  | none =>
    rw [hc, he] at hop
    exact h.unused n hn hop
  | some rid =>
    rw [hc] at hop
    obtain ⟨m, hm, hid⟩ := hop
    rw [Client.rid_of_created hc, ← hid] at he
    have := D.autoId_injective he
    omega

omit [DecidableEq ι] in
theorem Fresh.creation_ne {D : Deployment ι} {s : System ι δ} (h : Fresh D s) {x : ι}
    {rid : String} (hm : rid ∈ (s.clients x).creations) {n : ℕ} (hn : s.nextAutoId ≤ n) :
    rid ≠ D.autoId n := by
  obtain ⟨w, hw, hc⟩ := List.mem_filterMap.mp hm
  rw [← Client.rid_of_created hc]
  exact h.rid_ne ((h.writes x).1 w hw) hn

/-! ## Every step -/

theorem nextAutoId_le (D : Deployment ι) (s : System ι δ) (e : Event ι) :
    s.nextAutoId ≤ (s.step D e).nextAutoId := by
  cases e with
  | clock t => exact le_rfl
  | client x e =>
    simp only [System.step]
    split <;> omega

theorem Addressed.step {D : Deployment ι} {s : System ι δ} (h : Fresh D s) {op : RoomOp}
    (hop : Addressed D s op) {x : ι} {e : ClientEvent} :
    Addressed D (s.step D (.client x e)) op := by
  obtain ⟨hk, hop⟩ := hop
  refine ⟨hk, ?_⟩
  cases hc : Client.created op with
  | none =>
    rw [hc] at hop
    exact h.hasData_step hop
  | some rid =>
    rw [hc] at hop
    obtain ⟨n, hn, hid⟩ := hop
    exact ⟨n, hn.trans_le (nextAutoId_le D s _), hid⟩

theorem Settled.step {D : Deployment ι} {s : System ι δ} (h : Fresh D s) {x : ι}
    {e : ClientEvent} {rid : String} {n m : ℕ} (hnm : n ≤ m) (hr : Settled s rid n) :
    Settled (s.step D (.client x e)) rid m :=
  ⟨hr.1, hr.2.step hnm fun _ hop => hasData_apply (h.applied hop).1 (.inl hr.2.1)⟩

/-- An accepted create or join settles its room. -/
theorem Fresh.settled_of_opens {D : Deployment ι} {s : System ι δ} (h : Fresh D s) {x : ι}
    {w : Write} {rest : List Write} (ho : (s.clients x).outbox = w :: rest)
    (hopen : Client.opens w.op = true) :
    Settled (s.step D (.client x (.deliverWrite true))) w.op.rid s.history.length := by
  have hop : s.applied D (.client x (.deliverWrite true)) = some w.op := by
    simp [System.applied, Client.step, Client.deliverWrite, ho]
  have hk : IsKey w.op.rid := ((h.writes x).1 w (by rw [ho]; exact List.mem_cons_self)).1
  refine ⟨hk, since_applied hop (hasData_apply hk (.inr ⟨rfl, ?_⟩))⟩
  intro rid uid ts hm
  rw [hm] at hopen
  cases hopen

/-- What a client sends goes to a room of its own making or to one that is there. -/
theorem Fresh.writes_step {D : Deployment ι} {s : System ι δ} (h : Fresh D s) {x : ι}
    {e : ClientEvent} (hscan : ScansRooms s (.client x e)) (y : ι) :
    ((s.step D (.client x e)).clients y).Writes fun w =>
      Addressed D (s.step D (.client x e)) w.op := by
  have hkept : (s.clients y).Writes fun w => Addressed D (s.step D (.client x e)) w.op := by
    refine (h.writes y).mono ?_
    intro w hw
    exact Addressed.step h hw
  by_cases hy : y = x
  · subst hy
    rw [step_client_self]
    refine hkept.step _ e ?_
    intro w hw
    cases hw with
    | create hfront hbet =>
      refine ⟨D.autoId_key _, s.nextAutoId, ?_, rfl⟩
      simp [System.step, Client.step, Client.createTUI, hfront, hbet]
    | join =>
      obtain ⟨hk, hd⟩ := hscan _ rfl
      rw [hasValue_iff, roomRef_key hk] at hd
      exact ⟨hk, h.hasData_step hd⟩
    | start htarget =>
      obtain ⟨hk, hd, -⟩ := (h.entered y).current _ (Client.currentRID_of_startTarget htarget)
      exact ⟨hk, h.hasData_step hd⟩
  · rw [step_client_other D s hy]
    exact hkept

/-- A client enters rooms that are there. -/
theorem Fresh.entered_step {D : Deployment ι} {s : System ι δ} (h : Fresh D s) {x : ι}
    {e : ClientEvent} (y : ι) :
    ((s.step D (.client x e)).clients y).Entered (Settled (s.step D (.client x e))) := by
  by_cases hy : y = x
  · subst hy
    rw [step_client_self]
    refine (h.entered y).step _ e (fun r n m hnm hr => hr.step h hnm) ?_
    intro w rest he ho hopen
    subst he
    exact h.settled_of_opens ho hopen
  · rw [step_client_other D s hy]
    exact (h.entered y).mono fun r n hr => hr.step h le_rfl

theorem Fresh.step {D : Deployment ι} {s : System ι δ} (h : Fresh D s) {e : Event ι}
    (hscan : ScansRooms s e) : Fresh D (s.step D e) := by
  cases e with
  | clock t => exact ⟨h.unused, h.creations, h.nodup, h.apart, h.writes, h.entered⟩
  | client x e =>
    have hother : ∀ y, y ≠ x → (s.step D (.client x e)).clients y = s.clients y :=
      fun y hy => step_client_other D s hy e
    have hself := step_client_self D s x e
    have hle := nextAutoId_le D s (.client x e)
    have hcreations : _ = (s.clients x).creations ++ [D.autoId s.nextAutoId] ∨ _ :=
      Client.creations_step (c := s.clients x) (s.env D x) e rfl
    rw [← hself] at hcreations
    -- a creation of another client is an earlier one, one of `x` may be new
    have hmem : ∀ y rid, rid ∈ ((s.step D (.client x e)).clients y).creations →
        rid ∈ (s.clients y).creations ∨
          y = x ∧ rid = D.autoId s.nextAutoId := by
      intro y rid hm
      by_cases hy : y = x
      · subst hy
        rcases hcreations with hc | hc
        · rw [hc] at hm
          rcases List.mem_append.mp hm with hm | hm
          · exact .inl hm
          · exact .inr ⟨rfl, List.mem_singleton.mp hm⟩
        · exact .inl (hc.subset hm)
      · rw [hother y hy] at hm
        exact .inl hm
    have hold : ∀ y, ∀ rid ∈ (s.clients y).creations, ∀ n, s.nextAutoId ≤ n →
        rid ≠ D.autoId n := fun y rid hm n hn => h.creation_ne hm hn
    have hborn : ∀ rid, ¬ HasData s.db ["rooms", rid] →
        HasData (s.step D (.client x e)).db ["rooms", rid] →
        rid ∈ (s.clients x).creations ∧
          rid ∉ ((s.step D (.client x e)).clients x).creations := by
      intro rid hn hd
      have hc := h.created_step hn hd
      have hnd := h.nodup x
      rw [hc] at hnd
      exact ⟨by rw [hc]; exact List.mem_cons_self, (List.nodup_cons.mp hnd).1⟩
    refine ⟨?_, ?_, ?_, ?_, h.writes_step hscan, h.entered_step⟩
    · intro n hn hd
      have hnone := h.unused n (hle.trans hn)
      exact hold x _ (hborn _ hnone hd).1 n (hle.trans hn) rfl
    · intro y rid hm hd
      rcases hmem y rid hm with hm' | ⟨rfl, rfl⟩
      · obtain ⟨hmx, hmx'⟩ := hborn rid (h.creations y rid hm') hd
        obtain rfl : y = x := h.apart y x rid hm' hmx
        exact hmx' hm
      · exact hold y _ (hborn _ (h.unused _ le_rfl) hd).1 _ le_rfl rfl
    · intro y
      by_cases hy : y = x
      · subst hy
        rcases hcreations with hc | hc
        · rw [hc]
          refine List.nodup_append.mpr ⟨h.nodup y, List.nodup_singleton _, ?_⟩
          intro rid hm rid' hm'
          rw [List.mem_singleton.mp hm']
          exact hold y rid hm _ le_rfl
        · exact (h.nodup y).sublist hc.sublist
      · rw [hother y hy]
        exact h.nodup y
    · intro y z rid hy hz
      rcases hmem y rid hy with hy | ⟨hyx, hrid⟩
      · rcases hmem z rid hz with hz | ⟨-, hrid⟩
        · exact h.apart y z rid hy hz
        · exact absurd hrid (hold y rid hy _ le_rfl)
      · rcases hmem z rid hz with hz | ⟨hzx, -⟩
        · exact absurd hrid (hold z rid hz _ le_rfl)
        · rw [hyx, hzx]

omit [DecidableEq ι] in
theorem ScansRooms.scansKeys {s : System ι δ} {e : Event ι} (h : ScansRooms s e) :
    ScansKeys s e := by
  intro c text he
  subst he
  exact (h text rfl).1

/-- Where phones scan the codes of rooms that exist, every room is created once. -/
theorem run_fresh (D : Deployment ι) {evs : List (Event ι)}
    (h : D.Along (δ := δ) ScansRooms evs) : Fresh D (D.run evs : System ι δ) :=
  exec_invariant (fresh_init D) (fun _ _ hi hp => hi.step hp) h

end

end Unplug.App
