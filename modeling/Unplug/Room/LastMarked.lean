import Unplug.App.Controllers
import Unplug.Room.Ledger

/-! # The last marked user

The listener's loop ends with the marked user that sorts last. A later write to
the room can put another user there: a mark of one that sorts behind, a join that
clears the entry, or another creation of the room. Every other write keeps the loser. -/
namespace Unplug.Room
open Unplug.Store Unplug.Firebase Unplug.App RealtimeDatabase

section
variable {δ : Type*} [RealtimeDatabase δ] {db : δ} {rid u : String}

/-- The loop finds the user in the room and its time not zero. -/
def MarkedIn (db : δ) (rid u : String) : Prop :=
  HasData db ["rooms", rid, "users", u] ∧
    leafAt db ["rooms", rid, "users", u, "time"] ≠ some (.num 0)

theorem markedIn_iff (hk : IsKey rid) :
    u ∈ children db (roomUsersRef rid) ∧ marked db (roomUsersRef rid) u = true ↔
      MarkedIn db rid u := by
  rw [mem_children_iff, roomUsersRef_key hk]
  simp [marked, MarkedIn]

theorem lastMarked_iff (hk : IsKey rid) :
    lastMarked db (roomUsersRef rid) = some u ↔
      MarkedIn db rid u ∧ ∀ v, MarkedIn db rid v → v = u ∨ keyLt δ v u = true := by
  have hmem : ∀ v, v ∈ (children db (roomUsersRef rid)).filter (marked db (roomUsersRef rid)) ↔
      MarkedIn db rid v := by
    intro v
    rw [List.mem_filter, markedIn_iff hk]
  have hsorted := (children_sorted db (roomUsersRef rid)).filter (marked db (roomUsersRef rid))
  unfold lastMarked
  generalize (children db (roomUsersRef rid)).filter (marked db (roomUsersRef rid)) = l at *
  constructor
  · intro h
    obtain ⟨init, rfl⟩ := List.getLast?_eq_some_iff.mp h
    refine ⟨(hmem u).mp (by simp), ?_⟩
    intro v hv
    rcases List.mem_append.mp ((hmem v).mpr hv) with hv | hv
    · exact .inr ((List.pairwise_append.mp hsorted).2.2 v hv u (by simp))
    · exact .inl (List.mem_singleton.mp hv)
  · intro hx
    obtain ⟨hu, hall⟩ := hx
    have hul : u ∈ l := (hmem u).mpr hu
    cases hw : l.getLast? with
    | none =>
      rw [List.getLast?_eq_none_iff.mp hw] at hul
      exact (List.not_mem_nil hul).elim
    | some w =>
      obtain ⟨init, rfl⟩ := List.getLast?_eq_some_iff.mp hw
      rcases hall w ((hmem w).mp (by simp)) with hwu | hwu
      · rw [hwu]
      · -- the last one cannot sort before another one of the list
        rcases List.mem_append.mp hul with hul | hul
        · have huw := (List.pairwise_append.mp hsorted).2.2 u hul w (by simp)
          rw [keyLt_asymm huw] at hwu
          cases hwu
        · rw [List.mem_singleton.mp hul]

/-- The write leaves the loser of its room: once somebody is marked, a mark is of
a user that sorts before the last marked one, a join is not of that one, and the
room is not created anew. -/
def KeepsLast (db : δ) : RoomOp → Prop
  | .mark rid uid _ => leafAt db (roomUserTimeRef rid uid) = some (.num 0) →
      ∀ u ∈ lastMarked db (roomUsersRef rid), keyLt δ uid u = true
  | .joinRoomWithRID rid user => ∀ u ∈ lastMarked db (roomUsersRef rid), user.uid ≠ u
  | .startRoom _ _ => True
  | .createAndJoinRoom rid _ _ => lastMarked db (roomUsersRef rid) = none

instance (db : δ) : ∀ op, Decidable (KeepsLast db op)
  | .mark _ _ _ => inferInstanceAs (Decidable (_ → ∀ u ∈ _, _))
  | .joinRoomWithRID _ _ => inferInstanceAs (Decidable (∀ u ∈ _, _))
  | .startRoom _ _ => inferInstanceAs (Decidable True)
  | .createAndJoinRoom _ _ _ => inferInstanceAs (Decidable (_ = none))

theorem markedIn_congr {db' : δ} (h : userSubtree rid u db = userSubtree rid u db')
    (hk : IsKey rid) : MarkedIn db rid u ↔ MarkedIn db' rid u := by
  rw [userSubtree_key hk, userSubtree_key hk] at h
  have hq : ∀ q, leafAt db ("rooms" :: rid :: "users" :: u :: q) =
      leafAt db' ("rooms" :: rid :: "users" :: u :: q) := congrFun h
  simp only [MarkedIn, HasData, List.cons_append, List.nil_append, hq]

/-- The listener reads the users map only. -/
theorem loserName_congr {db' : δ} (hk : IsKey rid)
    (h : ∀ u, userSubtree rid u db = userSubtree rid u db') :
    loserName db (roomUsersRef rid) = loserName db' (roomUsersRef rid) := by
  have hlast : lastMarked db (roomUsersRef rid) = lastMarked db' (roomUsersRef rid) := by
    apply Option.ext
    intro u
    rw [lastMarked_iff hk, lastMarked_iff hk]
    simp only [markedIn_congr (h _) hk]
  have hname : ∀ u, nameOf db (roomUsersRef rid) u = nameOf db' (roomUsersRef rid) u := by
    intro u
    unfold nameOf strAt
    rw [show leafAt db (roomUsersRef rid ++ [u, "name"]) =
      leafAt db' (roomUsersRef rid ++ [u, "name"]) from congrFun (h u) ["name"]]
  rw [loserName_eq, loserName_eq, hlast, funext hname]

/-- Where the users have names, the listener names somebody once somebody is marked. -/
theorem loserName_ne (hk : IsKey rid)
    (hnames : ∀ v, HasData db ["rooms", rid, "users", v] →
      ∃ name, leafAt db ["rooms", rid, "users", v, "name"] = some (.str name) ∧ name ≠ "")
    (h : MarkedIn db rid u) : loserName db (roomUsersRef rid) ≠ "" := by
  have hmem : u ∈ (children db (roomUsersRef rid)).filter (marked db (roomUsersRef rid)) :=
    List.mem_filter.mpr ((markedIn_iff hk).mpr h)
  cases hl : lastMarked db (roomUsersRef rid) with
  | none =>
    rw [List.getLast?_eq_none_iff.mp hl] at hmem
    exact (List.not_mem_nil hmem).elim
  | some v =>
    obtain ⟨name, hname, hne⟩ := hnames v ((lastMarked_iff hk).mp hl).1.1
    rw [loserName_eq, hl, Option.map_some, Option.getD_some, nameOf, roomUsersRef_key hk]
    rw [show strAt db (["rooms", rid, "users"] ++ [v, "name"]) = some name from
      strAt_eq_some.mpr hname]
    exact hne

/-- A recorded loss is what the listener looks for. -/
theorem MarkedIn.of_lost (hk : IsKey rid) (h : lost db rid u) : MarkedIn db rid u := by
  obtain ⟨t, ht, hne⟩ := h
  have hleaf : leafAt db ["rooms", rid, "users", u, "time"] = some (.num t) := by
    rw [← roomUserTimeRef_key hk]
    exact numAt_eq_some.mp ht
  refine ⟨⟨["time"], _, hleaf⟩, ?_⟩
  rw [hleaf]
  simpa using hne

/-- A mark of a user whose time is not zero changes nothing. -/
theorem mark_of_markedIn (hk : IsKey rid) (h : MarkedIn db rid u) (ts : ℚ) :
    (RoomOp.mark rid u ts).apply db = db := by
  rw [apply_mark, commitMark, roomUserTimeRef_key hk, if_neg h.2]

/-- Whom a write finds unmarked and leaves marked, it has marked. -/
theorem markedIn_of_apply (hk : IsKey rid) {op : RoomOp} (hop : AfterCreate rid op)
    (h : MarkedIn (op.apply db) rid u) :
    MarkedIn db rid u ∨ ∃ ts, op = .mark rid u ts ∧
      leafAt db ["rooms", rid, "users", u, "time"] = some (.num 0) := by
  cases hown : own rid u op with
  | false => exact .inl ((markedIn_congr (userSubtree_frame hk hop hown db) hk).mp h)
  | true =>
    rcases own_cases hown with ⟨user, rfl, rfl⟩ | ⟨ts, rfl⟩
    · refine absurd ?_ h.2
      rw [apply_join, leafAt_join_users db hk, if_pos ⟨rfl, rfl⟩]
      simp [userEntry]
    · by_cases ht : leafAt db ["rooms", rid, "users", u, "time"] = some (.num 0)
      · exact .inr ⟨ts, rfl, ht⟩
      · rw [apply_mark, commitMark, roomUserTimeRef_key hk, if_neg ht] at h
        exact .inl h

/-- A marked user stays marked until it joins again. -/
theorem markedIn_apply (hk : IsKey rid) {op : RoomOp} (hop : AfterCreate rid op)
    (hjoin : ∀ user, op = .joinRoomWithRID rid user → user.uid ≠ u) (h : MarkedIn db rid u) :
    MarkedIn (op.apply db) rid u := by
  cases hown : own rid u op with
  | false => exact (markedIn_congr (userSubtree_frame hk hop hown db) hk).mpr h
  | true =>
    rcases own_cases hown with ⟨user, rfl, hu⟩ | ⟨ts, rfl⟩
    · exact absurd hu (hjoin user rfl)
    · rw [mark_of_markedIn hk h]
      exact h

/-- **A write that keeps the loser leaves the last marked user where it is.** -/
theorem lastMarked_apply (hk : IsKey rid) {op : RoomOp} (hkey : IsKey op.rid)
    (hkeep : op.rid = rid → KeepsLast db op) (h : lastMarked db (roomUsersRef rid) = some u) :
    lastMarked (op.apply db) (roomUsersRef rid) = some u := by
  have hop : AfterCreate rid op := by
    refine ⟨hkey, ?_⟩
    intro room user he
    subst he
    rw [show lastMarked db (roomUsersRef rid) = none from hkeep rfl] at h
    cases h
  obtain ⟨hu, hlast⟩ := (lastMarked_iff hk).mp h
  have hjoin : ∀ user, op = .joinRoomWithRID rid user → user.uid ≠ u := by
    intro user he
    subst he
    exact hkeep rfl u h
  refine (lastMarked_iff hk).mpr ⟨markedIn_apply hk hop hjoin hu, ?_⟩
  intro v hv
  rcases markedIn_of_apply hk hop hv with hv | ⟨ts, rfl, ht⟩
  · exact hlast v hv
  · exact .inr (hkeep rfl (by rw [roomUserTimeRef_key hk]; exact ht) u h)

end

end Unplug.Room
