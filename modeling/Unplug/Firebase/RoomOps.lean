import Unplug.Firebase.Helper

/-! # What each write does to a room named by one key

The rids of `childByAutoId` are single keys. For those, every location the
program reads lies at a fixed depth, and each write is characterized by what a
reader finds there afterwards. -/
namespace Unplug.Firebase
open Unplug.Store RealtimeDatabase

variable {δ : Type*} [RealtimeDatabase δ]

@[simp] theorem apply_create (db : δ) (rid : String) (room : Room) (user : User) :
    (RoomOp.createAndJoinRoom rid room user).apply db = createAndJoinRoom db rid room user := rfl

@[simp] theorem apply_join (db : δ) (rid : String) (user : User) :
    (RoomOp.joinRoomWithRID rid user).apply db = joinRoomWithRID db rid user := rfl

@[simp] theorem apply_start (db : δ) (rid : String) (ts : ℚ) :
    (RoomOp.startRoom rid ts).apply db = startRoom db rid ts := rfl

@[simp] theorem apply_mark (db : δ) (rid uid : String) (ts : ℚ) :
    (RoomOp.mark rid uid ts).apply db = commitMark db rid uid ts := rfl

/-! ## Users entries -/

theorem leafAt_create_users (db : δ) {rid : String} (h : IsKey rid) (room : Room) (user : User)
    (k u : String) (q : Path) :
    leafAt (createAndJoinRoom db rid room user) ("rooms" :: k :: "users" :: u :: q) =
      if k = rid then (if u = user.uid then (userEntry user).leafAt q else none)
      else leafAt db ("rooms" :: k :: "users" :: u :: q) := by
  unfold createAndJoinRoom
  rw [roomRef_key h]
  by_cases hk : k = rid
  · subst hk
    rw [if_pos rfl, ← roomValue_users room]
    exact leafAt_setValue_below db ["rooms", k] _ _
  · rw [if_neg hk]
    exact leafAt_setValue_of_parts db _ ["rooms"] [] _ (Ne.symm hk)

theorem leafAt_join_users (db : δ) {rid : String} (h : IsKey rid) (user : User)
    (k u : String) (q : Path) :
    leafAt (joinRoomWithRID db rid user) ("rooms" :: k :: "users" :: u :: q) =
      if k = rid ∧ u = user.uid then (userEntry user).leafAt q
      else leafAt db ("rooms" :: k :: "users" :: u :: q) := by
  simp only [joinRoomWithRID, updateChildValues, roomUsersRef_key h, List.foldl_cons,
    List.foldl_nil, List.cons_append, List.nil_append]
  by_cases hk : k = rid
  · subst hk
    by_cases hu : u = user.uid
    · subst hu
      rw [if_pos ⟨rfl, rfl⟩]
      exact leafAt_setValue_below db ["rooms", k, "users", user.uid] _ q
    · rw [if_neg (fun hh => hu hh.2)]
      exact leafAt_setValue_of_parts db _ ["rooms", k, "users"] [] q (Ne.symm hu)
  · rw [if_neg (fun hh => hk hh.1)]
    exact leafAt_setValue_of_parts db _ ["rooms"] _ _ (Ne.symm hk)

theorem leafAt_start_users (db : δ) {rid : String} (h : IsKey rid) (ts : ℚ)
    (k u : String) (q : Path) :
    leafAt (startRoom db rid ts) ("rooms" :: k :: "users" :: u :: q) =
      leafAt db ("rooms" :: k :: "users" :: u :: q) := by
  simp only [startRoom, updateChildValues, roomRef_key h, List.foldl_cons, List.foldl_nil,
    List.cons_append, List.nil_append]
  by_cases hk : k = rid
  · subst hk
    exact leafAt_setValue_of_parts db _ ["rooms", k] [] (u :: q) (by decide)
  · exact leafAt_setValue_of_parts db _ ["rooms"] _ _ (Ne.symm hk)

/-- Whatever is put at a user's time, the entries of other users stay. -/
theorem leafAt_setTime_apart (db : δ) {rid : String} (h : IsKey rid) (uid : String)
    (value : Option Leaf) {k u : String} (q : Path) (hne : ¬ (k = rid ∧ u = uid)) :
    leafAt (setLeaf db (roomUserTimeRef rid uid) value) ("rooms" :: k :: "users" :: u :: q) =
      leafAt db ("rooms" :: k :: "users" :: u :: q) := by
  have hwrite : ∀ v, leafAt (setValue db (roomUserTimeRef rid uid) v)
      ("rooms" :: k :: "users" :: u :: q) = leafAt db ("rooms" :: k :: "users" :: u :: q) := by
    intro v
    rw [roomUserTimeRef_key h]
    by_cases hk : k = rid
    · exact hk ▸ leafAt_setValue_of_parts db v ["rooms", k, "users"] _ _
        fun hu => hne ⟨hk, hu.symm⟩
    · exact leafAt_setValue_of_parts db v ["rooms"] _ _ (Ne.symm hk)
  cases value with
  | none => exact hwrite _
  | some l => exact hwrite _

/-- Nor does anything in the entry change except the time. -/
theorem leafAt_setTime_users (db : δ) {rid : String} (h : IsKey rid) (uid : String)
    (value : Option Leaf) (k u : String) {f : String} (q : Path) (hf : f ≠ "time") :
    leafAt (setLeaf db (roomUserTimeRef rid uid) value)
        ("rooms" :: k :: "users" :: u :: f :: q) =
      leafAt db ("rooms" :: k :: "users" :: u :: f :: q) := by
  by_cases hku : k = rid ∧ u = uid
  · obtain ⟨rfl, rfl⟩ := hku
    rw [roomUserTimeRef_key h]
    cases value with
    | none => exact leafAt_setValue_of_parts db _ ["rooms", k, "users", u] [] q (Ne.symm hf)
    | some l => exact leafAt_setValue_of_parts db _ ["rooms", k, "users", u] [] q (Ne.symm hf)
  · exact leafAt_setTime_apart db h uid value _ hku

/-- Outside the users map nothing changes at all. -/
theorem leafAt_setTime_field (db : δ) {rid : String} (h : IsKey rid) (uid : String)
    (value : Option Leaf) (k f : String) (q : Path) (hf : f ≠ "users") :
    leafAt (setLeaf db (roomUserTimeRef rid uid) value) ("rooms" :: k :: f :: q) =
      leafAt db ("rooms" :: k :: f :: q) := by
  have hwrite : ∀ v, leafAt (setValue db (roomUserTimeRef rid uid) v)
      ("rooms" :: k :: f :: q) = leafAt db ("rooms" :: k :: f :: q) := by
    intro v
    rw [roomUserTimeRef_key h]
    by_cases hk : k = rid
    · subst hk
      exact leafAt_setValue_of_parts db v ["rooms", k] _ _ (Ne.symm hf)
    · exact leafAt_setValue_of_parts db v ["rooms"] _ _ (Ne.symm hk)
  cases value with
  | none => exact hwrite _
  | some l => exact hwrite _

/-- A mark leaves the entries of other users alone. -/
theorem leafAt_mark_apart (db : δ) {rid : String} (h : IsKey rid) (uid : String) (ts : ℚ)
    {k u : String} (q : Path) (hne : ¬ (k = rid ∧ u = uid)) :
    leafAt (commitMark db rid uid ts) ("rooms" :: k :: "users" :: u :: q) =
      leafAt db ("rooms" :: k :: "users" :: u :: q) := by
  unfold commitMark
  split
  · exact leafAt_setTime_apart db h uid _ q hne
  · rfl

/-- A mark writes the time of its own user's entry and no other field. -/
theorem leafAt_mark_users (db : δ) {rid : String} (h : IsKey rid) (uid : String) (ts : ℚ)
    (k u : String) {f : String} (q : Path) (hf : f ≠ "time") :
    leafAt (commitMark db rid uid ts) ("rooms" :: k :: "users" :: u :: f :: q) =
      leafAt db ("rooms" :: k :: "users" :: u :: f :: q) := by
  unfold commitMark
  split
  · exact leafAt_setTime_users db h uid _ k u q hf
  · rfl

/-- Where a mark finds a zero it leaves its timestamp, elsewhere what was there. -/
theorem leafAt_mark_time (db : δ) {rid : String} (h : IsKey rid) (uid : String) (ts : ℚ)
    (k u : String) :
    leafAt (commitMark db rid uid ts) ["rooms", k, "users", u, "time"] =
      if k = rid ∧ u = uid then markBlock (leafAt db ["rooms", k, "users", u, "time"]) ts
      else leafAt db ["rooms", k, "users", u, "time"] := by
  by_cases hku : k = rid ∧ u = uid
  · obtain ⟨rfl, rfl⟩ := hku
    rw [if_pos ⟨rfl, rfl⟩]
    unfold commitMark
    rw [roomUserTimeRef_key h]
    split
    · rename_i ht
      simp [markBlock, setLeaf, ht]
    · rename_i ht
      rw [markBlock, if_neg ht]
  · rw [if_neg hku]
    exact leafAt_mark_apart db h uid ts _ hku

/-- A mark at its own location does what the transaction's block does. -/
theorem leafAt_commitMark (db : δ) (rid uid : String) (ts : ℚ) :
    leafAt (commitMark db rid uid ts) (roomUserTimeRef rid uid) =
      markBlock (leafAt db (roomUserTimeRef rid uid)) ts := by
  unfold commitMark
  split
  · rename_i h
    rw [h]
    simp [markBlock, setLeaf]
  · rename_i h
    rw [markBlock, if_neg h]

/-! ## The other fields of a room -/

theorem leafAt_create_field (db : δ) {rid : String} (h : IsKey rid) (room : Room) (user : User)
    (k : String) (q : Path) :
    leafAt (createAndJoinRoom db rid room user) ("rooms" :: k :: q) =
      if k = rid then (roomValue room user).leafAt q else leafAt db ("rooms" :: k :: q) := by
  unfold createAndJoinRoom
  rw [roomRef_key h]
  by_cases hk : k = rid
  · subst hk
    rw [if_pos rfl]
    exact leafAt_setValue_below db ["rooms", k] _ _
  · rw [if_neg hk]
    exact leafAt_setValue_of_parts db _ ["rooms"] [] _ (Ne.symm hk)

theorem leafAt_join_field (db : δ) {rid : String} (h : IsKey rid) (user : User)
    (k f : String) (q : Path) (hf : f ≠ "users") :
    leafAt (joinRoomWithRID db rid user) ("rooms" :: k :: f :: q) =
      leafAt db ("rooms" :: k :: f :: q) := by
  simp only [joinRoomWithRID, updateChildValues, roomUsersRef_key h, List.foldl_cons,
    List.foldl_nil, List.cons_append, List.nil_append]
  by_cases hk : k = rid
  · subst hk
    exact leafAt_setValue_of_parts db _ ["rooms", k] _ _ (Ne.symm hf)
  · exact leafAt_setValue_of_parts db _ ["rooms"] _ _ (Ne.symm hk)

theorem leafAt_start_field (db : δ) {rid : String} (h : IsKey rid) (ts : ℚ)
    (k f : String) (q : Path) :
    leafAt (startRoom db rid ts) ("rooms" :: k :: f :: q) =
      if k = rid ∧ f = "timeStart" then (Value.num ts).leafAt q
      else leafAt db ("rooms" :: k :: f :: q) := by
  simp only [startRoom, updateChildValues, roomRef_key h, List.foldl_cons, List.foldl_nil,
    List.cons_append, List.nil_append]
  by_cases hk : k = rid
  · subst hk
    by_cases hf : f = "timeStart"
    · subst hf
      rw [if_pos ⟨rfl, rfl⟩]
      exact leafAt_setValue_below db ["rooms", k, "timeStart"] _ q
    · rw [if_neg (fun hh => hf hh.2)]
      exact leafAt_setValue_of_parts db _ ["rooms", k] [] q (Ne.symm hf)
  · rw [if_neg (fun hh => hk hh.1)]
    exact leafAt_setValue_of_parts db _ ["rooms"] _ _ (Ne.symm hk)

theorem leafAt_mark_field (db : δ) {rid : String} (h : IsKey rid) (uid : String) (ts : ℚ)
    (k f : String) (q : Path) (hf : f ≠ "users") :
    leafAt (commitMark db rid uid ts) ("rooms" :: k :: f :: q) =
      leafAt db ("rooms" :: k :: f :: q) := by
  unfold commitMark
  split
  · exact leafAt_setTime_field db h uid _ k f q hf
  · rfl

/-! ## The room and the others -/

/-- A write leaves every room but its own alone. -/
theorem leafAt_apply_apart (db : δ) {op : RoomOp} (h : IsKey op.rid) {k : String}
    (hk : k ≠ op.rid) (q : Path) :
    leafAt (op.apply db) ("rooms" :: k :: q) = leafAt db ("rooms" :: k :: q) := by
  have hparts : ∀ {rid : String}, k ≠ rid → ∀ (v : Value) (a : Path),
      leafAt (setValue db (["rooms"] ++ rid :: a) v) (["rooms"] ++ k :: q) =
        leafAt db (["rooms"] ++ k :: q) := by
    intro rid hk v a
    exact leafAt_setValue_of_parts db v ["rooms"] a q (Ne.symm hk)
  cases op with
  | createAndJoinRoom rid room user =>
    simp only [RoomOp.rid] at h hk
    rw [apply_create, leafAt_create_field db h, if_neg hk]
  | joinRoomWithRID rid user =>
    simp only [RoomOp.rid] at h hk
    simp only [apply_join, joinRoomWithRID, updateChildValues, roomUsersRef_key h, List.foldl_cons,
      List.foldl_nil]
    exact hparts hk _ _
  | startRoom rid ts =>
    simp only [RoomOp.rid] at h hk
    simp only [apply_start, startRoom, updateChildValues, roomRef_key h, List.foldl_cons,
      List.foldl_nil]
    exact hparts hk _ _
  | mark rid uid ts =>
    simp only [RoomOp.rid] at h hk
    simp only [apply_mark, commitMark, roomUserTimeRef_key h]
    split
    · cases markBlock (some (.num 0)) ts with
      | none => exact hparts hk _ _
      | some l => exact hparts hk _ _
    · rfl

/-- A creation, a join and a start leave data at their room, and no write takes
the last data away from one. -/
theorem hasData_apply {db : δ} {op : RoomOp} (h : IsKey op.rid) {k : String}
    (hd : HasData db ["rooms", k] ∨ k = op.rid ∧ ∀ rid uid ts, op ≠ .mark rid uid ts) :
    HasData (op.apply db) ["rooms", k] := by
  by_cases hk : k = op.rid
  · subst hk
    cases op with
    | createAndJoinRoom rid room user =>
      simp only [RoomOp.rid] at h ⊢
      refine ⟨["timeLimit"], .num room.timeLimit, ?_⟩
      rw [apply_create]
      exact (leafAt_create_field db h room user rid ["timeLimit"]).trans (by
        simp [roomValue, Room.toDict])
    | joinRoomWithRID rid user =>
      simp only [RoomOp.rid] at h ⊢
      refine ⟨["users", user.uid, "name"], .str user.name, ?_⟩
      rw [apply_join]
      exact (leafAt_join_users db h user rid user.uid ["name"]).trans (by simp [userEntry])
    | startRoom rid ts =>
      simp only [RoomOp.rid] at h ⊢
      refine ⟨["timeStart"], .num ts, ?_⟩
      rw [apply_start]
      exact (leafAt_start_field db h ts rid "timeStart" []).trans (by simp)
    | mark rid uid ts =>
      simp only [RoomOp.rid] at h hd ⊢
      have hdata : HasData db ["rooms", rid] := by
        rcases hd with hd | hd
        · exact hd
        · exact absurd rfl (hd.2 rid uid ts)
      by_cases ht : leafAt db ["rooms", rid, "users", uid, "time"] = some (.num 0)
      · refine ⟨["users", uid, "time"], .num ts, ?_⟩
        rw [apply_mark]
        exact (leafAt_mark_time db h uid ts rid uid).trans (by simp [ht, markBlock])
      · rw [apply_mark, commitMark, roomUserTimeRef_key h, if_neg ht]
        exact hdata
  · obtain ⟨q, l, hl⟩ := hd.resolve_right fun hh => hk hh.1
    exact ⟨q, l, (leafAt_apply_apart db h hk q).trans hl⟩

end Unplug.Firebase
