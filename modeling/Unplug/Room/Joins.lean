import Unplug.Room.Ledger

/-! # Joins: which of them are harmless

Two consequences of the ledger. Joins and marks of different users commute, so
no join is lost to another writer. A join of a user who is in the room already
starts its entry afresh, and with it clears the loss the mark recorded. -/
namespace Unplug.Room
open Unplug.Store Unplug.Firebase Unplug.Machine RealtimeDatabase

section
variable {δ : Type*} [RealtimeDatabase δ]

theorem entryAt_create (db : δ) {rid : String} (h : IsKey rid) (room : Room) (creator : User)
    (uid : String) :
    entryAt rid uid (createAndJoinRoom db rid room creator) =
      if uid = creator.uid then some ⟨creator.name, 0⟩ else none := by
  simp only [entryAt, timeAt, strAt, numAt, roomUserTimeRef_key h, roomUsersRef_key h,
    List.cons_append, List.nil_append, leafAt_create_users db h, if_true]
  by_cases hu : uid = creator.uid <;> simp [hu, userEntry]

/-- **No join is lost.** Two interleavings of the users' own operations leave
the same users map, entry by entry and in the list of its keys. Each entry is
the one its user's own operations alone produce, the ledger's, and a user who
joined is in it under its own name. -/
theorem users_map_confluent (db : δ) {rid : String} (hrid : IsKey rid) (room : Room)
    (creator : User) {ops ops' : List RoomOp} (hops : ∀ op ∈ ops, AfterCreate rid op)
    (hops' : ∀ op ∈ ops', AfterCreate rid op)
    (hsame : ∀ uid, ops.filter (own rid uid) = ops'.filter (own rid uid)) :
    (∀ uid, userSubtree rid uid (exec RoomOp.apply (createAndJoinRoom db rid room creator) ops) =
      userSubtree rid uid (exec RoomOp.apply (createAndJoinRoom db rid room creator) ops')) ∧
    children (exec RoomOp.apply (createAndJoinRoom db rid room creator) ops) (roomUsersRef rid) =
      children (exec RoomOp.apply (createAndJoinRoom db rid room creator) ops')
        (roomUsersRef rid) ∧
    (∀ uid, userSubtree rid uid (exec RoomOp.apply (createAndJoinRoom db rid room creator) ops) =
      userSubtree rid uid (exec RoomOp.apply (createAndJoinRoom db rid room creator)
        (ops.filter (own rid uid)))) ∧
    (∀ uid, entryAt rid uid (exec RoomOp.apply (createAndJoinRoom db rid room creator) ops) =
      exec Entry.next (if uid = creator.uid then some ⟨creator.name, 0⟩ else none)
        (ops.filterMap (moveOf rid uid))) ∧
    (∀ user, RoomOp.joinRoomWithRID rid user ∈ ops →
      (∀ other, RoomOp.joinRoomWithRID rid other ∈ ops → other.uid = user.uid →
        other.name = user.name) →
      ∃ t, entryAt rid user.uid
        (exec RoomOp.apply (createAndJoinRoom db rid room creator) ops) = some ⟨user.name, t⟩) := by
  have hind := users_independent (δ := δ) hrid
  have hsub : ∀ uid,
      userSubtree rid uid (exec RoomOp.apply (createAndJoinRoom db rid room creator) ops) =
      userSubtree rid uid (exec RoomOp.apply (createAndJoinRoom db rid room creator) ops') :=
    fun uid => hind.confluent hops hops' (hsame uid)
  have hentry : ∀ uid,
      entryAt rid uid (exec RoomOp.apply (createAndJoinRoom db rid room creator) ops) =
      exec Entry.next (if uid = creator.uid then some ⟨creator.name, 0⟩ else none)
        (ops.filterMap (moveOf rid uid)) := fun uid => by
    rw [entryAt_exec hrid hops, entryAt_create db hrid]
  refine ⟨hsub, ?_, fun uid => hind.exec_own hops, hentry, ?_⟩
  · refine children_eq_of_mem_iff fun k => ?_
    rw [mem_children, mem_children]
    have hk := congrFun (hsub k)
    simp only [userSubtree] at hk
    simp only [hk]
  · intro user hjoin hname
    have hmove : Move.join user.name ∈ ops.filterMap (moveOf rid user.uid) :=
      List.mem_filterMap.mpr ⟨_, hjoin, by simp [moveOf]⟩
    obtain ⟨name, t, hm, he⟩ := next_joined (e := if user.uid = creator.uid
      then some ⟨creator.name, 0⟩ else none) hmove
    refine ⟨t, ?_⟩
    rw [hentry, he]
    -- the name in the entry is one of the user's joins, and those agree
    obtain ⟨op, hop, hmv⟩ := List.mem_filterMap.mp hm
    cases op with
    | createAndJoinRoom _ _ _ => cases hmv
    | startRoom _ _ => cases hmv
    | mark _ _ _ =>
      simp only [moveOf] at hmv
      split at hmv <;> cases hmv
    | joinRoomWithRID rid' other =>
      simp only [moveOf] at hmv
      split at hmv
      · rename_i ho
        obtain ⟨rfl, hu⟩ := ho
        cases hmv
        rw [hname other hop hu]
      · cases hmv

/-! ## Joining again -/

theorem leafAt_join_time (db : δ) (rid : String) (user : User) (uid : String) :
    leafAt (joinRoomWithRID db rid user) (roomUserTimeRef rid uid) =
      if uid = user.uid then some (.num 0) else leafAt db (roomUserTimeRef rid uid) := by
  simp only [joinRoomWithRID, updateChildValues, List.foldl_cons, List.foldl_nil, roomUserTimeRef]
  by_cases hu : uid = user.uid
  · subst hu
    have hb := leafAt_setValue_below db (roomUsersRef rid ++ [user.uid]) (userEntry user) ["time"]
    rw [List.append_assoc] at hb
    rw [if_pos rfl]
    exact hb.trans (by simp [userEntry])
  · rw [if_neg hu]
    exact leafAt_setValue_of_parts db _ (roomUsersRef rid) [] ["time"] (Ne.symm hu)

theorem timeAt_join (db : δ) (rid : String) (user : User) (uid : String) :
    timeAt (joinRoomWithRID db rid user) rid uid =
      if uid = user.uid then some 0 else timeAt db rid uid := by
  unfold timeAt numAt
  rw [leafAt_join_time]
  by_cases hu : uid = user.uid <;> simp [hu]

theorem timeAt_joins (db : δ) (rid : String) (users : List User) (uid : String) :
    timeAt (users.foldl (fun db user => joinRoomWithRID db rid user) db) rid uid =
      if uid ∈ users.map User.uid then some 0 else timeAt db rid uid := by
  induction users generalizing db with
  | nil => rfl
  | cons user users ih =>
    rw [List.foldl_cons, ih, timeAt_join]
    by_cases hu : uid = user.uid <;> simp [hu]

/-- **When a recorded loss survives joining.** A sequence of joins of a room, by
new users or by users already in it, keeps every recorded time exactly when
none of the joining users has one: its own join writes the zero of a fresh
entry over it. -/
theorem joins_keep_losses_iff (db : δ) (rid : String) (users : List User) :
    (∀ uid t, timeAt db rid uid = some t → t ≠ 0 →
      timeAt (users.foldl (fun db user => joinRoomWithRID db rid user) db) rid uid = some t) ↔
    ∀ user ∈ users, ¬ lost db rid user.uid := by
  constructor
  · intro h user hu hx
    obtain ⟨t, ht, hne⟩ := hx
    have hk := h user.uid t ht hne
    rw [timeAt_joins, if_pos (List.mem_map_of_mem hu)] at hk
    exact hne (Option.some.inj hk).symm
  · intro h uid t ht hne
    rw [timeAt_joins]
    split
    · rename_i hm
      obtain ⟨user, hu, rfl⟩ := List.mem_map.mp hm
      exact absurd ⟨t, ht, hne⟩ (h user hu)
    · exact ht

end

/-- A player who lost at second 100 and scans the room's code again is back to
having no loss recorded. -/
theorem rejoin_clears_loss :
    let ann : User := ⟨"Ann", 0, "uidA"⟩
    let lostRoom := exec RoomOp.apply (RealtimeDatabase.empty : LeafTree)
      [.createAndJoinRoom "-L3" ⟨60, 5, 0⟩ ann, .startRoom "-L3" 90, .mark "-L3" "uidA" 100]
    timeAt lostRoom "-L3" "uidA" = some 100 ∧
    timeAt (joinRoomWithRID lostRoom "-L3" ann) "-L3" "uidA" = some 0 := by
  decide +kernel

/-- Two interleavings of Ann's join and mark and Bob's join, with a Start and a
join elsewhere in between. -/
theorem users_map_confluent_two :
    let ann : User := ⟨"Ann", 0, "uidA"⟩
    let bob : User := ⟨"Bob", 0, "uidB"⟩
    let ops : List RoomOp := [.joinRoomWithRID "-L3" bob, .mark "-L3" "uidA" 100,
      .startRoom "-L3" 90]
    let ops' : List RoomOp := [.joinRoomWithRID "-L4" ann, .mark "-L3" "uidA" 100,
      .startRoom "-L3" 90, .joinRoomWithRID "-L3" bob]
    children (exec RoomOp.apply
        (createAndJoinRoom (RealtimeDatabase.empty : LeafTree) "-L3" ⟨60, 5, 0⟩ ann) ops)
        (roomUsersRef "-L3") =
      children (exec RoomOp.apply
        (createAndJoinRoom (RealtimeDatabase.empty : LeafTree) "-L3" ⟨60, 5, 0⟩ ann) ops')
        (roomUsersRef "-L3") := by
  intro ann bob ops ops'
  have hkey : IsKey "-L3" := by decide
  have hops : ∀ op ∈ ops, AfterCreate "-L3" op := by
    simp [ops, AfterCreate, RoomOp.rid, hkey]
  have hops' : ∀ op ∈ ops', AfterCreate "-L3" op := by
    simp [ops', AfterCreate, RoomOp.rid, hkey, show IsKey "-L4" by decide]
  have hsame : ∀ uid, ops.filter (own "-L3" uid) = ops'.filter (own "-L3" uid) := by
    intro uid
    by_cases ha : "uidA" = uid
    · subst ha; rfl
    · by_cases hb : "uidB" = uid
      · subst hb; rfl
      · simp [ops, ops', own, moveOf, ann, bob, ha, hb]
  exact (users_map_confluent RealtimeDatabase.empty hkey ⟨60, 5, 0⟩ ann hops hops' hsame).2.1

end Unplug.Room
