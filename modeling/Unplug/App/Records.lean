import Unplug.App.Freshness
import Unplug.Room.Record

/-! # Every phone is shown records

The server's tree is the writes it took, one after the other, and with the writes that a
phone has pending on top it is what the phone is shown. Both refine the records of the
rooms: a snapshot shows of a room the record that the room's own writes make. -/
namespace Unplug.App
open Unplug.Store Unplug.Firebase Unplug.Machine Unplug.Room RealtimeDatabase

section
variable {ι δ : Type*} [DecidableEq ι] [RealtimeDatabase δ] {D : Deployment ι}
  {evs : List (Event ι)}

/-! ## What a phone has pending -/

omit [DecidableEq ι] in
theorem pending_keys {s : System ι δ} (hfresh : Fresh D s) (x : ι) :
    ∀ op ∈ (s.clients x).pending, IsKey op.rid := by
  intro op hop
  rcases List.mem_append.mp hop with hop | hop
  · obtain ⟨a, ha, rfl⟩ := List.mem_map.mp hop
    exact ((hfresh.writes x).2 a ha).1
  · obtain ⟨w, hw, rfl⟩ := List.mem_map.mp hop
    exact ((hfresh.writes x).1 w hw).1

/-! ## What a snapshot shows -/

/-- The writes a snapshot shows: the server's first `i`, and those the client has pending. -/
def System.shown (D : Deployment ι) (δ : Type*) [RealtimeDatabase δ] (evs : List (Event ι)) (x : ι)
    (i : ℕ) (overlaid : Bool) : List RoomOp :=
  (D.writes δ evs).take i ++
    if overlaid then ((D.run evs : System ι δ).clients x).pending else []

/-- Transactions that have not run show nothing. -/
theorem optimistic_none {uid : String} {ts : List Transaction} (h : ∀ t ∈ ts, t.run = none)
    (db : δ) :
    ts.foldl (Transaction.optimistic uid) db = db := by
  induction ts generalizing db with
  | nil => rfl
  | cons t ts ih =>
    rw [List.foldl_cons, Transaction.optimistic, h t List.mem_cons_self]
    exact ih (fun t' ht => h t' (List.mem_cons_of_mem _ ht)) db

/-- A snapshot is the tree of the writes it shows. -/
theorem view_shown {x : ι} {i : ℕ} {overlaid : Bool} {db : δ}
    (hv : ((D.run evs : System ι δ).clients x).view ((D.run evs : System ι δ).env D x) i overlaid =
      some db)
    (hmarks : overlaid = true → ∀ t ∈ ((D.run evs : System ι δ).clients x).transactions,
      t.run = none) :
    db = exec RoomOp.apply empty (System.shown D δ evs x i overlaid) := by
  obtain ⟨d, hd, rfl⟩ := Option.map_eq_some_iff.mp hv
  have hdb := (history_writes D evs).2.2 i d hd
  unfold System.shown
  cases overlaid with
  | false => rw [if_neg (by simp), if_neg (by simp), List.append_nil, ← hdb]
  | true =>
    rw [if_pos rfl, if_pos rfl, Client.overlay, optimistic_none (hmarks rfl), exec_append, ← hdb]
    rfl

/-- **A room is shown as its own writes made it.** The tree of a snapshot represents, at
each rid, the record that the shown writes to this room make, and every reader of the
controllers finds that record. -/
theorem shown_records (hscans : D.Along (δ := δ) ScansRooms evs) {x : ι} {i : ℕ} {overlaid : Bool}
    {db : δ}
    (hv : ((D.run evs : System ι δ).clients x).view ((D.run evs : System ι δ).env D x) i overlaid =
      some db)
    (hmarks : overlaid = true → ∀ t ∈ ((D.run evs : System ι δ).clients x).transactions,
      t.run = none) (rid : String) :
    recordsAt db rid = exec Records.apply (fun _ => none)
        ((System.shown D δ evs x i overlaid).filter fun op => op.rid = rid) rid ∧
      ∀ r, recordsAt db rid = some r → Reads db rid r := by
  have hkeys : ∀ op ∈ System.shown D δ evs x i overlaid, IsKey op.rid := by
    intro op hop
    rcases List.mem_append.mp hop with hop | hop
    · exact writes_keys D (hscans.mono fun _ _ h => h.scansKeys) op (List.mem_of_mem_take hop)
    · cases overlaid with
      | false => cases hop
      | true => exact pending_keys (run_fresh D hscans) x op hop
  rw [view_shown hv hmarks]
  generalize System.shown D δ evs x i overlaid = ops at hkeys
  have hrefines := (tree_refines_records (δ := δ)).exec dated_empty (along_of_forall hkeys _)
  rw [recordsAt_empty, outputs_some] at hrefines
  refine ⟨by rw [hrefines, records_filter rid rfl], ?_⟩
  intro r hr
  have hk := (recordsAt_eq_some.mp hr).1
  refine reads_of_record hr ?_
  exact exec_invariant (I := fun db : δ => Complete db rid) (complete_empty rid)
    (fun _ _ hi hp => complete_apply hk hi hp) (along_of_forall hkeys _)

end

/-- Bob, whose join is pending, is shown the room with both players in it. -/
theorem shown_records_bob :
    let evs := bothInLobby.take 8
    ∃ db : LeafTree, ((twoPhones.run evs : System Bool LeafTree).clients true).view
        ((twoPhones.run evs : System Bool LeafTree).env twoPhones true) 1 true = some db ∧
      recordsAt db "-" = exec Records.apply (fun _ => none)
        ((System.shown twoPhones LeafTree evs true 1 true).filter fun op => op.rid = "-") "-" ∧
      ∀ r, recordsAt db "-" = some r → Reads db "-" r := by
  intro evs
  have hscans : twoPhones.Along (δ := LeafTree) ScansRooms evs := by decide +kernel
  have hmarks : ∀ t ∈ ((twoPhones.run evs : System Bool LeafTree).clients true).transactions,
      t.run = none := by decide +kernel
  have hsome : (((twoPhones.run evs : System Bool LeafTree).clients true).view
      ((twoPhones.run evs : System Bool LeafTree).env twoPhones true) 1 true).isSome = true := by
    decide +kernel
  obtain ⟨db, hv⟩ := Option.isSome_iff_exists.mp hsome
  exact ⟨db, hv, shown_records hscans hv (fun _ => hmarks) "-"⟩

end Unplug.App
