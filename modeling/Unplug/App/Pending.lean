import Unplug.App.Freshness
import Unplug.Room.Deadline

/-! # A client's own writes over the server's state

The client library shows its own pending writes at once. In a room that the
client has entered none of them is the room's creation, so its view of the room
is the server's, with its own starts laid over it. -/
namespace Unplug.App
open Unplug.Store Unplug.Firebase Unplug.Machine Unplug.Room RealtimeDatabase

namespace Client

/-- No creation waits behind another write to its room, and none of the current room. -/
structure InTurn (c : Client) : Prop where
  order : c.pending.Pairwise fun a b => created b ≠ some a.rid
  current : ∀ rid, c.currentRID = some rid → ∀ op ∈ c.pending, created op ≠ some rid

theorem inTurn_launch : InTurn launch where
  order := List.Pairwise.nil
  current _ h := by cases h

section
variable {δ : Type*} [RealtimeDatabase δ] {c : Client}

/-- Apart from an answer, a step keeps the pending writes, adds one or drops them all. -/
theorem pending_step (env : Env δ) {e : ClientEvent} (ha : e ≠ .ack) :
    (c.step env e).client.pending = c.pending ∨
      (∃ w, Emits env c e w ∧ (c.step env e).client.pending = c.pending ++ [w.op]) ∨
      (e = .relaunch ∧ (c.step env e).client.pending = []) := by
  unfold pending
  cases queue_step (c := c) env e with
  | same hacks ho => exact .inl (by rw [hacks, ho])
  | sent hw hacks ho => exact .inr (.inl ⟨_, hw, by simp [hacks, ho]⟩)
  | delivered he hacks ho =>
    left
    rw [hacks, ho]
    simp
  | answered he => exact absurd he ha
  | relaunched he hacks ho => exact .inr (.inr ⟨he, by rw [hacks, ho]; rfl⟩)

/-- A pending write was pending before, or is sent in the step. -/
theorem mem_pending_step (env : Env δ) {e : ClientEvent} {op : RoomOp}
    (h : op ∈ (c.step env e).client.pending) :
    op ∈ c.pending ∨ ∃ w, Emits env c e w ∧ op = w.op := by
  by_cases ha : e = .ack
  · subst ha
    cases queue_step (c := c) env .ack with
    | same hacks ho => exact .inl (by unfold pending at h ⊢; rwa [hacks, ho] at h)
    | sent hw => cases hw
    | delivered he => cases he
    | answered _ hacks ho =>
      left
      unfold pending at h ⊢
      rw [hacks]
      rw [ho] at h
      exact List.mem_cons_of_mem _ h
    | relaunched he => cases he
  · rcases pending_step (c := c) env ha with hp | ⟨w, hw, hp⟩ | ⟨-, hp⟩
    · exact .inl (hp ▸ h)
    · rw [hp] at h
      rcases List.mem_append.mp h with h | h
      · exact .inl h
      · exact .inr ⟨w, hw, List.mem_singleton.mp h⟩
    · rw [hp] at h
      exact (List.not_mem_nil h).elim

theorem InTurn.step (h : c.InTurn) (env : Env δ) (e : ClientEvent)
    (hnew : ∀ w, Emits env c e w → ∀ rid, created w.op = some rid →
      (∀ op ∈ c.pending, op.rid ≠ rid) ∧ c.currentRID ≠ some rid) :
    (c.step env e).client.InTurn := by
  by_cases hl : e = .relaunch
  · subst hl
    exact inTurn_launch
  by_cases ha : e = .ack
  · subst ha
    simp only [Client.step]
    have htail : ∀ {w answer rest}, c.acks = (w, answer) :: rest →
        c.pending = w.op :: (rest.map (fun a => a.1.op) ++ c.outbox.map (·.op)) := by
      intro w answer rest hacks
      simp [pending, hacks]
    rcases ack_cases c with ⟨-, hack⟩ | ⟨w, answer, rest, hacks, -, hack⟩ |
      ⟨w, n, rest, bet, hacks, -, -, hack⟩
    · rw [hack]
      exact h
    · have hp := htail hacks
      have horder := h.order
      rw [hp] at horder
      rw [hack]
      refine ⟨(List.pairwise_cons.mp horder).2, ?_⟩
      intro rid hr op hop
      exact h.current rid hr op (by rw [hp]; exact List.mem_cons_of_mem _ hop)
    · have hp := htail hacks
      have horder := h.order
      rw [hp] at horder
      have hpending : ((c.admitted w.op.rid n rest).presentLobby w.sender bet).pending =
          rest.map (fun a => a.1.op) ++ c.outbox.map (·.op) := by
        unfold pending
        rw [acks_presentLobby, outbox_presentLobby]
        rfl
      rw [hack]
      refine ⟨by rw [hpending]; exact (List.pairwise_cons.mp horder).2, ?_⟩
      intro rid hr op hop
      rw [hpending] at hop
      rw [currentRID_presentLobby] at hr
      cases hr
      exact (List.pairwise_cons.mp horder).1 op hop
  · have hrid : (c.step env e).client.currentRID = c.currentRID := (follows_step env ha hl).rid
    rcases pending_step (c := c) env ha with hp | ⟨w, hw, hp⟩ | ⟨he, -⟩
    · exact ⟨by rw [hp]; exact h.order, by rw [hp, hrid]; exact h.current⟩
    · refine ⟨?_, ?_⟩
      · rw [hp]
        refine List.pairwise_append.mpr ⟨h.order, List.pairwise_singleton _ _, ?_⟩
        intro op hop op' hop'
        rw [List.mem_singleton.mp hop']
        intro hc
        exact (hnew w hw _ hc).1 op hop rfl
      · intro rid hr op hop
        rw [hrid] at hr
        rw [hp] at hop
        rcases List.mem_append.mp hop with hop | hop
        · exact h.current rid hr op hop
        · rw [List.mem_singleton.mp hop]
          intro hc
          exact (hnew w hw rid hc).2 hr
    · exact absurd he hl

end
end Client

section
variable {ι δ : Type*} [RealtimeDatabase δ]

/-- The clients of a run keep their creations in turn. -/
theorem run_inTurn [DecidableEq ι] (D : Deployment ι) {evs : List (Event ι)}
    (h : D.Along (δ := δ) ScansRooms evs) (x : ι) :
    ((D.run evs : System ι δ).clients x).InTurn := by
  have hall : Fresh D (D.run evs : System ι δ) ∧
      ∀ x, ((D.run evs : System ι δ).clients x).InTurn := by
    refine exec_invariant (I := fun s : System ι δ => Fresh D s ∧ ∀ x, (s.clients x).InTurn)
      ⟨fresh_init D, fun _ => Client.inTurn_launch⟩ ?_ h
    intro s e hi hscan
    obtain ⟨hfresh, hturn⟩ := hi
    refine ⟨hfresh.step hscan, ?_⟩
    intro y
    rcases clients_step D s e y with ⟨-, hsame⟩ | ⟨e', -, hown⟩
    · rw [hsame]
      exact hturn y
    · rw [hown]
      refine (hturn y).step _ e' ?_
      intro w hw rid hc
      cases hw with
      | create =>
        cases hc
        refine ⟨?_, ?_⟩
        · intro op hop
          obtain ⟨w, hw, rfl⟩ := mem_pending (hfresh.writes y) hop
          exact hfresh.rid_ne hw le_rfl
        · intro hr
          obtain ⟨-, hd, -⟩ := (hfresh.entered y).current _ hr
          exact hfresh.unused _ le_rfl hd
      | join => cases hc
      | start => cases hc
  exact hall.2 x

/-! ## Views of the current room -/

variable {D : Deployment ι} {s : System ι δ} {x : ι} {rid : String}

/-- A client's pending writes come after the creation of the room it is in. -/
theorem pending_afterCreate (hfresh : Fresh D s) (hturn : (s.clients x).InTurn)
    (hr : (s.clients x).currentRID = some rid) :
    ∀ op ∈ (s.clients x).pending, AfterCreate rid op := by
  intro op hop
  obtain ⟨w, hw, rfl⟩ := mem_pending (hfresh.writes x) hop
  refine ⟨hw.1, ?_⟩
  intro room user he
  exact hturn.current rid hr _ hop (by rw [he]; rfl)

/-- Optimistic marks show in the users map only. -/
theorem leafAt_optimistic_field {ts : List Transaction} (hkeys : ∀ t ∈ ts, IsKey t.rid)
    (uid : String) (db : δ) (k : String) {f : String} (hf : f ≠ "users") (q : Path) :
    leafAt (ts.foldl (Transaction.optimistic uid) db) ("rooms" :: k :: f :: q) =
      leafAt db ("rooms" :: k :: f :: q) := by
  induction ts generalizing db with
  | nil => rfl
  | cons t ts ih =>
    rw [List.foldl_cons, ih fun u hu => hkeys u (List.mem_cons_of_mem _ hu)]
    unfold Transaction.optimistic
    split
    · exact leafAt_setTime_field db (hkeys t List.mem_cons_self) uid _ k f q hf
    · rfl

theorem leafAt_overlay_field (hfresh : Fresh D s) (user : User) (db : δ) {f : String}
    (hf : f ≠ "users") :
    leafAt ((s.clients x).overlay user db) ["rooms", rid, f] =
      leafAt ((s.clients x).pending.foldl RoomOp.apply db) ["rooms", rid, f] :=
  leafAt_optimistic_field (fun t ht => ((hfresh.entered x).transactions t ht).1) user.uid _ rid
    hf []

/-- Whatever is pending, a view has the server's limit and stake of the room. -/
theorem view_fixed (hfresh : Fresh D s) (hafter : ∀ op ∈ (s.clients x).pending, AfterCreate rid op)
    {i : ℕ} {overlaid : Bool} {db : δ}
    (hv : (s.clients x).view (s.env D x) i overlaid = some db) {f : String} (hf : Fixed f) :
    ∃ d, s.history[i]? = some d ∧ leafAt db ["rooms", rid, f] = leafAt d ["rooms", rid, f] := by
  obtain ⟨d, hd, hdb⟩ := Option.map_eq_some_iff.mp hv
  refine ⟨d, hd, ?_⟩
  cases overlaid with
  | false => rw [show d = db from hdb]
  | true =>
    rw [← show (s.clients x).overlay (D.user x) d = db from hdb,
      leafAt_overlay_field hfresh _ _ hf.1, leafAt_fixed_foldl hafter _ hf]

/-- A view that shows pending writes has the start that one of them sets, where
they set one start only, and the server's otherwise. -/
theorem view_timeStart (hfresh : Fresh D s) (hturn : (s.clients x).InTurn)
    (hr : (s.clients x).currentRID = some rid) {timestamp : ℚ}
    (hone : ∀ t, .startRoom rid t ∈ (s.clients x).pending → t = timestamp)
    {i : ℕ} {db : δ} (hv : (s.clients x).view (s.env D x) i true = some db) :
    ∃ d, s.history[i]? = some d ∧
      leafAt db ["rooms", rid, "timeStart"] =
        if .startRoom rid timestamp ∈ (s.clients x).pending then some (.num timestamp)
        else leafAt d ["rooms", rid, "timeStart"] := by
  obtain ⟨d, hd, hdb⟩ := Option.map_eq_some_iff.mp hv
  refine ⟨d, hd, ?_⟩
  rw [← show (s.clients x).overlay (D.user x) d = db from hdb,
    leafAt_overlay_field hfresh _ _ (by decide),
    leafAt_timeStart_foldl (pending_afterCreate hfresh hturn hr) hone]

end

end Unplug.App
