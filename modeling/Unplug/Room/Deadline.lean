import Unplug.Room.Ledger

/-! # A room's start and its limit

After its creation a room keeps the time limit it was created with. Its start is
what the last start wrote, whichever member tapped the button. -/
namespace Unplug.Room
open Unplug.Store Unplug.Firebase RealtimeDatabase

/-- The start of the room `rid` that the write sets. -/
def startedAt (rid : String) : RoomOp → Option ℚ
  | .startRoom rid' timestamp => if rid' = rid then some timestamp else none
  | _ => none

theorem startedAt_eq_some {rid : String} {op : RoomOp} {timestamp : ℚ} :
    startedAt rid op = some timestamp ↔ op = .startRoom rid timestamp := by
  cases op with
  | startRoom rid' t =>
    by_cases h : rid' = rid
    · simp [startedAt, h]
    · simp [startedAt, h]
  | createAndJoinRoom => simp [startedAt]
  | joinRoomWithRID => simp [startedAt]
  | mark => simp [startedAt]

section
variable {δ : Type*} [RealtimeDatabase δ] {rid : String}

/-- A write after the creation touches no field next to the users map but the start. -/
theorem leafAt_field_apply {op : RoomOp} (hop : AfterCreate rid op) (db : δ) {f : String}
    (hf : f ≠ "users") :
    leafAt (op.apply db) ["rooms", rid, f] =
      match startedAt rid op with
      | some timestamp =>
        if f = "timeStart" then some (.num timestamp) else leafAt db ["rooms", rid, f]
      | none => leafAt db ["rooms", rid, f] := by
  obtain ⟨hk, hc⟩ := hop
  cases op with
  | createAndJoinRoom rid' room user =>
    have hne : rid ≠ rid' := by
      intro he
      exact hc room user (by rw [he])
    exact (leafAt_create_field db hk room user rid [f]).trans (if_neg hne)
  | joinRoomWithRID rid' user => exact leafAt_join_field db hk user rid f [] hf
  | startRoom rid' timestamp =>
    simp only [RoomOp.rid] at hk
    rw [apply_start, leafAt_start_field db hk timestamp rid f []]
    by_cases hrid : rid' = rid
    · subst hrid
      simp [startedAt]
    · simp [startedAt, hrid, Ne.symm hrid]
  | mark rid' uid timestamp => exact leafAt_mark_field db hk uid timestamp rid f [] hf

/-- A field that no write after the creation sets: the limit and the stake. -/
def Fixed (f : String) : Prop := f ≠ "users" ∧ f ≠ "timeStart"

instance (f : String) : Decidable (Fixed f) := inferInstanceAs (Decidable (_ ∧ _))

theorem leafAt_fixed_apply {op : RoomOp} (hop : AfterCreate rid op) (db : δ) {f : String}
    (hf : Fixed f) : leafAt (op.apply db) ["rooms", rid, f] = leafAt db ["rooms", rid, f] := by
  rw [leafAt_field_apply hop db hf.1]
  split
  · exact if_neg hf.2
  · rfl

theorem leafAt_timeStart_apply {op : RoomOp} (hop : AfterCreate rid op) (db : δ) :
    leafAt (op.apply db) ["rooms", rid, "timeStart"] =
      ((startedAt rid op).map Leaf.num).or (leafAt db ["rooms", rid, "timeStart"]) := by
  rw [leafAt_field_apply hop db (by decide)]
  cases startedAt rid op with
  | none => rfl
  | some timestamp => rfl

/-! ## Several writes -/

variable {ops : List RoomOp}

theorem leafAt_fixed_foldl (hops : ∀ op ∈ ops, AfterCreate rid op) (db : δ) {f : String}
    (hf : Fixed f) :
    leafAt (ops.foldl RoomOp.apply db) ["rooms", rid, f] = leafAt db ["rooms", rid, f] := by
  induction ops generalizing db with
  | nil => rfl
  | cons op ops ih =>
    rw [List.foldl_cons, ih (fun o ho => hops o (List.mem_cons_of_mem _ ho)),
      leafAt_fixed_apply (hops op List.mem_cons_self) db hf]

/-- Where all starts among the writes are of one time, the room has that start
afterwards if there is one, and its old start otherwise. -/
theorem leafAt_timeStart_foldl {timestamp : ℚ} (hops : ∀ op ∈ ops, AfterCreate rid op)
    (hone : ∀ t, .startRoom rid t ∈ ops → t = timestamp) (db : δ) :
    leafAt (ops.foldl RoomOp.apply db) ["rooms", rid, "timeStart"] =
      if .startRoom rid timestamp ∈ ops then some (.num timestamp)
      else leafAt db ["rooms", rid, "timeStart"] := by
  induction ops generalizing db with
  | nil => rfl
  | cons op ops ih =>
    rw [List.foldl_cons, ih (fun o ho => hops o (List.mem_cons_of_mem _ ho))
      (fun t ht => hone t (List.mem_cons_of_mem _ ht)),
      leafAt_timeStart_apply (hops op List.mem_cons_self)]
    by_cases hlater : .startRoom rid timestamp ∈ ops
    · rw [if_pos hlater, if_pos (List.mem_cons_of_mem _ hlater)]
    · rw [if_neg hlater]
      cases hs : startedAt rid op with
      | none =>
        refine (if_neg ?_).symm
        intro hm
        rcases List.mem_cons.mp hm with hm | hm
        · rw [startedAt_eq_some.mpr hm.symm] at hs
          cases hs
        · exact hlater hm
      | some t =>
        have hop := startedAt_eq_some.mp hs
        obtain rfl := hone t (by rw [hop]; exact List.mem_cons_self)
        rw [if_pos (by rw [hop]; exact List.mem_cons_self)]
        rfl

end

end Unplug.Room
