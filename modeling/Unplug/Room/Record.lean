import Unplug.Room.LastMarked
import Unplug.Room.Joins
import Unplug.Room.Schema
import Unplug.Firebase.Snapshots
import Unplug.Machine.Refine

/-! # Rooms without their tree

A room is three numbers and an entry for each player. The tree at the rid of a room is a
representation of such a record: the writes to the tree are updates of the records, and
what the controllers read from the tree they could read from the record. -/
namespace Unplug.Room
open Unplug.Store Unplug.Firebase Unplug.Machine Unplug.App RealtimeDatabase

/-! ## Records -/

/-- A room as its players know it. -/
structure Record where
  room : Firebase.Room
  entry : String → Option Entry

/-- A player's entry makes a move. -/
def Record.move (r : Record) (uid : String) (m : Move) : Record :=
  { r with entry := Function.update r.entry uid (Entry.next (r.entry uid) m) }

/-- The rooms of a server, by their rids. -/
abbrev Records := String → Option Record

/-- What a write means for the rooms: a new record, or an update of one that is there. -/
def Records.apply (records : Records) : RoomOp → Records
  | .createAndJoinRoom rid room user => Function.update records rid
      (some (Record.move ⟨room, fun _ => none⟩ user.uid (.join user.name)))
  | .joinRoomWithRID rid user => Function.update records rid
      ((records rid).map (·.move user.uid (.join user.name)))
  | .startRoom rid timestamp => Function.update records rid
      ((records rid).map fun r => { r with room := { r.room with timeStart := timestamp } })
  | .mark rid uid timestamp => Function.update records rid
      ((records rid).map (·.move uid (.mark timestamp)))

/-- The player has a time that is not zero. -/
def Record.Lost (r : Record) (uid : String) : Prop := ∃ e, r.entry uid = some e ∧ e.time ≠ 0

/-! ## A room's own writes -/

theorem records_apart (records : Records) {op : RoomOp} {rid : String} (h : op.rid ≠ rid) :
    records.apply op rid = records rid := by
  cases op with
  | _ => exact Function.update_of_ne (Ne.symm h) _ _

/-- A write acts on the record at its rid by that record alone. -/
theorem records_own {records records' : Records} {op : RoomOp}
    (h : records op.rid = records' op.rid) :
    records.apply op op.rid = records'.apply op op.rid := by
  cases op with
  | _ =>
    simp only [RoomOp.rid] at h
    simp only [Records.apply, RoomOp.rid, Function.update_self, h]

/-- The record of a room is made by the room's own writes. -/
theorem records_filter (rid : String) {records records' : Records}
    (h : records rid = records' rid) (ops : List RoomOp) :
    exec Records.apply records ops rid =
      exec Records.apply records' (ops.filter fun op => op.rid = rid) rid := by
  induction ops generalizing records records' with
  | nil => exact h
  | cons op ops ih =>
    by_cases hr : op.rid = rid
    · subst hr
      rw [List.filter_cons_of_pos (by simp)]
      exact ih (records_own h)
    · rw [List.filter_cons_of_neg (by simpa using hr)]
      exact ih ((records_apart records hr).trans h)

/-! ## The tree of a record -/

section
variable {δ : Type*} [RealtimeDatabase δ] {db : δ} {rid : String}

/-- The room's own numbers, where all three are there. -/
def roomAt (db : δ) (rid : String) : Option Firebase.Room :=
  match numAt db ["rooms", rid, "timeLimit"], numAt db ["rooms", rid, "betAmount"],
    numAt db ["rooms", rid, "timeStart"] with
  | some timeLimit, some betAmount, some timeStart => some ⟨timeLimit, betAmount, timeStart⟩
  | _, _, _ => none

/-- The records that the tree represents. -/
def recordsAt (db : δ) : Records := fun rid =>
  if IsKey rid then (roomAt db rid).map fun room => ⟨room, fun uid => entryAt rid uid db⟩ else none

/-! ## A write to the tree is a write to the records -/

theorem roomAt_eq_some {room : Firebase.Room} : roomAt db rid = some room ↔
    leafAt db ["rooms", rid, "timeLimit"] = some (.num room.timeLimit) ∧
      leafAt db ["rooms", rid, "betAmount"] = some (.num room.betAmount) ∧
      leafAt db ["rooms", rid, "timeStart"] = some (.num room.timeStart) := by
  rw [← numAt_eq_some, ← numAt_eq_some, ← numAt_eq_some]
  unfold roomAt
  constructor
  · intro h
    split at h
    · rename_i hl hb hs
      cases h
      exact ⟨hl, hb, hs⟩
    · cases h
  · intro hx
    obtain ⟨hl, hb, hs⟩ := hx
    rw [hl, hb, hs]

theorem recordsAt_eq_some {r : Record} : recordsAt db rid = some r ↔
    IsKey rid ∧ roomAt db rid = some r.room ∧ ∀ uid, entryAt rid uid db = r.entry uid := by
  unfold recordsAt
  split
  · rename_i hk
    rw [Option.map_eq_some_iff]
    constructor
    · intro hx
      obtain ⟨room, hroom, rfl⟩ := hx
      exact ⟨hk, hroom, fun _ => rfl⟩
    · intro hx
      obtain ⟨-, hroom, hentry⟩ := hx
      exact ⟨r.room, hroom, by rw [show (fun uid => entryAt rid uid db) = r.entry from
        funext hentry]⟩
  · rename_i hk
    simp [hk]

theorem recordsAt_empty : recordsAt (empty : δ) = fun _ => none := by
  funext rid
  simp [recordsAt, roomAt, numAt]

/-- A room with a time limit has a start, as its creation writes both. -/
def Dated (db : δ) : Prop := ∀ rid, numAt db ["rooms", rid, "timeLimit"] ≠ none →
  numAt db ["rooms", rid, "timeStart"] ≠ none

theorem dated_empty : Dated (empty : δ) := fun rid h => absurd (by simp [numAt]) h

theorem numAt_congr {db' : δ} {p : Path} (h : leafAt db' p = leafAt db p) :
    numAt db' p = numAt db p := by
  unfold numAt
  rw [h]

/-- No write but a creation and a start touches a field of a room. -/
theorem leafAt_number (db : δ) {op : RoomOp} (hk : IsKey op.rid) {f : String} (hf : f ≠ "users")
    (hc : ∀ room user, op ≠ .createAndJoinRoom rid room user)
    (hs : ∀ t, op = .startRoom rid t → f ≠ "timeStart") :
    leafAt (op.apply db) ["rooms", rid, f] = leafAt db ["rooms", rid, f] := by
  by_cases hr : rid = op.rid
  · cases op with
    | createAndJoinRoom rid' room user => exact absurd (by rw [hr]; rfl) (hc room user)
    | joinRoomWithRID rid' user => exact leafAt_join_field db hk user rid f [] hf
    | startRoom rid' t =>
      simp only [RoomOp.rid] at hk hr
      rw [apply_start, leafAt_start_field db hk, if_neg]
      exact fun h => hs t (by rw [hr]) h.2
    | mark rid' uid t => exact leafAt_mark_field db hk uid t rid f [] hf
  · exact leafAt_apply_apart db hk hr [f]

theorem roomAt_create (db : δ) (hk : IsKey rid) (room : Firebase.Room) (user : User) :
    roomAt (createAndJoinRoom db rid room user) rid = some room := by
  refine roomAt_eq_some.mpr ⟨?_, ?_, ?_⟩
  all_goals
    rw [leafAt_create_field db hk, if_pos rfl]
    simp [roomValue, Room.toDict]

theorem dated_apply (h : Dated db) {op : RoomOp} (hk : IsKey op.rid) : Dated (op.apply db) := by
  intro r hl
  by_cases hc : ∃ room user, op = .createAndJoinRoom r room user
  · obtain ⟨room, user, rfl⟩ := hc
    simp only [RoomOp.rid] at hk
    have hs := (roomAt_eq_some.mp (roomAt_create db hk room user)).2.2
    rw [apply_create, numAt_eq_some.mpr hs]
    simp
  · have hc' : ∀ room user, op ≠ .createAndJoinRoom r room user :=
      fun room user he => hc ⟨room, user, he⟩
    rw [numAt_congr (leafAt_number db hk (by decide) hc' fun _ _ => by decide)] at hl
    by_cases hs : ∃ t, op = .startRoom r t
    · obtain ⟨t, rfl⟩ := hs
      simp only [RoomOp.rid] at hk
      rw [apply_start, numAt_eq_some.mpr ((leafAt_start_field db hk t r "timeStart" []).trans
        (if_pos ⟨rfl, rfl⟩))]
      simp
    · rw [numAt_congr (leafAt_number db hk (by decide) hc' fun t he => absurd ⟨t, he⟩ hs)]
      exact h r hl

/-- What the writes to a room make of its numbers. -/
theorem roomAt_apply (h : Dated db) {op : RoomOp} (hk : IsKey op.rid)
    (hc : ∀ room user, op ≠ .createAndJoinRoom rid room user) :
    roomAt (op.apply db) rid = match op with
      | .startRoom r t => if rid = r then
          (roomAt db rid).map fun room => { room with timeStart := t } else roomAt db rid
      | _ => roomAt db rid := by
  have hl := numAt_congr (leafAt_number db hk (f := "timeLimit") (by decide) hc
    fun _ _ => by decide)
  have hb := numAt_congr (leafAt_number db hk (f := "betAmount") (by decide) hc
    fun _ _ => by decide)
  have hsame : (∀ t, op ≠ .startRoom rid t) → roomAt (op.apply db) rid = roomAt db rid := by
    intro hs
    have ht := numAt_congr (leafAt_number db hk (f := "timeStart") (by decide) hc
      fun t he => absurd he (hs t))
    unfold roomAt
    rw [hl, hb, ht]
  cases op with
  | startRoom r t =>
    by_cases hr : rid = r
    · subst hr
      simp only [RoomOp.rid] at hk
      have ht := numAt_eq_some.mpr ((leafAt_start_field db hk t rid "timeStart" []).trans
        (if_pos ⟨rfl, rfl⟩))
      simp only [if_true]
      rw [apply_start] at hl hb ⊢
      unfold roomAt
      rw [hl, hb, ht]
      -- where the room has its limit it had a start before
      cases hlim : numAt db ["rooms", rid, "timeLimit"] with
      | none => rfl
      | some l =>
        obtain ⟨t', ht'⟩ := Option.ne_none_iff_exists'.mp (h rid (by rw [hlim]; simp))
        rw [ht']
        cases numAt db ["rooms", rid, "betAmount"] <;> rfl
    · simp only [if_neg hr]
      exact hsame fun t' he => hr (by cases he; rfl)
  | createAndJoinRoom r room user => exact hsame fun t he => by cases he
  | joinRoomWithRID r user => exact hsame fun t he => by cases he
  | mark r uid t => exact hsame fun t he => by cases he

/-- A move in the tree is the move in the record. -/
theorem records_moved (hk : IsKey rid) {op : RoomOp} (hop : AfterCreate rid op) {uid : String}
    {m : Move} (hm : ∀ u, moveOf rid u op = if u = uid then some m else none)
    (hroom : roomAt (op.apply db) rid = roomAt db rid) :
    recordsAt (op.apply db) rid = (recordsAt db rid).map (·.move uid m) := by
  unfold recordsAt
  rw [if_pos hk, if_pos hk, hroom, Option.map_map]
  congr 1
  funext room
  refine congrArg (Record.mk room) (funext fun u => ?_)
  rw [entryAt_apply hk hop, hm u]
  by_cases hu : u = uid
  · subst hu
    simp
  · simp [hu]

/-- **A write to the tree is the write to the records.** -/
theorem recordsAt_apply (h : Dated db) {op : RoomOp} (hop : IsKey op.rid) :
    recordsAt (op.apply db) = (recordsAt db).apply op := by
  funext k
  by_cases hk : IsKey k
  swap
  · have hne : k ≠ op.rid := fun he => hk (he ▸ hop)
    have hnone : ∀ d : δ, recordsAt d k = none := fun d => if_neg hk
    rw [hnone]
    cases op with
    | _ => exact ((Function.update_of_ne hne _ _).trans (hnone db)).symm
  by_cases hr : k = op.rid
  swap
  · -- the other rooms are as they were
    have hsame : recordsAt (op.apply db) k = recordsAt db k := by
      have hleaf := fun q => leafAt_apply_apart db hop hr q
      have hroom : roomAt (op.apply db) k = roomAt db k := by
        unfold roomAt
        rw [numAt_congr (hleaf _), numAt_congr (hleaf _), numAt_congr (hleaf _)]
      have hentry : ∀ uid, entryAt k uid (op.apply db) = entryAt k uid db := fun uid =>
        entryAt_congr (by
          rw [userSubtree_key hk, userSubtree_key hk]
          exact funext fun q => hleaf _)
      unfold recordsAt
      simp only [hroom, hentry]
    rw [hsame]
    cases op with
    | _ => exact (Function.update_of_ne hr _ _).symm
  subst hr
  cases op with
  | createAndJoinRoom rid room user =>
    simp only [RoomOp.rid] at hk ⊢
    simp only [Records.apply, Function.update_self]
    refine recordsAt_eq_some.mpr ⟨hk, roomAt_create db hk room user, fun uid => ?_⟩
    rw [apply_create, entryAt_create db hk]
    by_cases hu : uid = user.uid
    · subst hu
      simp [Record.move, Entry.next]
    · simp [Record.move, hu]
  | joinRoomWithRID rid user =>
    simp only [RoomOp.rid] at hk ⊢
    simp only [Records.apply, Function.update_self]
    refine records_moved hk ⟨hop, by simp⟩ (fun u => ?_) (roomAt_apply h hop (by simp))
    simp [moveOf, eq_comm]
  | startRoom rid t =>
    simp only [RoomOp.rid] at hk ⊢
    simp only [Records.apply, Function.update_self]
    have hroom : roomAt ((RoomOp.startRoom rid t).apply db) rid =
        (roomAt db rid).map fun room => { room with timeStart := t } :=
      (roomAt_apply h hop (by simp)).trans (if_pos rfl)
    have hentry : ∀ uid, entryAt rid uid ((RoomOp.startRoom rid t).apply db) =
        entryAt rid uid db := fun uid => entryAt_apply hk ⟨hop, by simp⟩ db
    unfold recordsAt
    simp only [hroom, hentry, if_pos hk, Option.map_map]
    rfl
  | mark rid uid t =>
    simp only [RoomOp.rid] at hk ⊢
    simp only [Records.apply, Function.update_self]
    refine records_moved hk ⟨hop, by simp⟩ (fun u => ?_) (roomAt_apply h hop (by simp))
    simp [moveOf, eq_comm]

/-- **The tree refines the records**, under writes to rooms that are named by one key. -/
theorem tree_refines_records : Refines (RoomOp.apply (δ := δ)) (fun _ op => IsKey op.rid) Dated
    recordsAt (fun _ op => some op) Records.apply where
  keeps _ _ h hk := dated_apply h hk
  step _ _ h hk := recordsAt_apply h hk

/-! ## What is read from the tree is in the record -/

/-- The room's users map has whole entries only. -/
def Complete (db : δ) (rid : String) : Prop :=
  ∀ uid, HasData db ["rooms", rid, "users", uid] → (entryAt rid uid db).isSome = true

theorem complete_empty (rid : String) : Complete (empty : δ) rid := by
  intro uid h
  obtain ⟨q, l, hl⟩ := h
  rw [leafAt_empty] at hl
  cases hl

theorem complete_apply (hk : IsKey rid) (h : Complete db rid) {op : RoomOp} (hop : IsKey op.rid) :
    Complete (op.apply db) rid := by
  intro uid hdata
  by_cases hc : ∃ room user, op = .createAndJoinRoom rid room user
  · obtain ⟨room, user, rfl⟩ := hc
    obtain ⟨q, l, hl⟩ := hdata
    rw [apply_create, entryAt_create db hk]
    rw [apply_create, show ["rooms", rid, "users", uid] ++ q =
      "rooms" :: rid :: "users" :: uid :: q from rfl, leafAt_create_users db hk, if_pos rfl] at hl
    split at hl
    · rename_i hu
      rw [if_pos hu]
      rfl
    · cases hl
  have hafter : AfterCreate rid op := ⟨hop, fun room user he => hc ⟨room, user, he⟩⟩
  cases hown : own rid uid op with
  | false =>
    have hsub := userSubtree_frame hk hafter hown db
    rw [entryAt_congr hsub]
    rw [userSubtree_key hk, userSubtree_key hk] at hsub
    exact h uid ((hasData_of_same (congrFun hsub)).mp hdata)
  | true =>
    rw [entryAt_apply hk hafter]
    rcases own_cases hown with ⟨user, rfl, rfl⟩ | ⟨t, rfl⟩
    · simp [moveOf, Entry.next]
    · have hold : HasData db ["rooms", rid, "users", uid] := by
        by_contra hno
        -- a mark that finds no zero changes nothing
        have hzero : leafAt db (roomUserTimeRef rid uid) ≠ some (.num 0) := by
          rw [roomUserTimeRef_key hk]
          exact fun hz => hno ⟨["time"], _, hz⟩
        rw [apply_mark, commitMark, if_neg hzero] at hdata
        exact hno hdata
      obtain ⟨e, he⟩ := Option.isSome_iff_exists.mp (h uid hold)
      simp [moveOf, he, Entry.next]

/-- Every reader of the room finds in the tree what the record has. -/
structure Reads (db : δ) (rid : String) (r : Record) : Prop where
  init : Room.init db (roomRef rid) =
    some ⟨some r.room.timeLimit, some r.room.betAmount, some r.room.timeStart⟩
  info : getInfoForRID db (roomRef rid) =
    some (some r.room.betAmount, some r.room.timeStart, some r.room.timeLimit)
  started : started db (roomRef rid) = true ↔ r.room.timeStart ≠ 0
  users : ∀ u, u ∈ children db (roomUsersRef rid) ↔ (r.entry u).isSome = true
  names : ∀ u, strAt db (roomUsersRef rid ++ [u, "name"]) = (r.entry u).map (·.name)
  loserName : ∀ u e, r.entry u = some e → e.time ≠ 0 →
    (∀ v, r.Lost v → v = u ∨ keyLt δ v u = true) → loserName db (roomUsersRef rid) = e.name
  nobody : (∀ u, ¬ r.Lost u) → Unplug.App.loserName db (roomUsersRef rid) = ""

theorem entryAt_eq_some {uid : String} {e : Entry} (h : entryAt rid uid db = some e) :
    strAt db (roomUsersRef rid ++ [uid, "name"]) = some e.name ∧
      timeAt db rid uid = some e.time := by
  unfold entryAt at h
  split at h
  · rename_i hn ht
    cases h
    exact ⟨hn, ht⟩
  · cases h

theorem hasData_entry (hk : IsKey rid) {uid : String} (h : (entryAt rid uid db).isSome = true) :
    HasData db ["rooms", rid, "users", uid] := by
  obtain ⟨e, he⟩ := Option.isSome_iff_exists.mp h
  have hn := strAt_eq_some.mp (entryAt_eq_some he).1
  rw [roomUsersRef_key hk] at hn
  exact ⟨["name"], _, hn⟩

/-- In a room with whole entries the marked users are the lost ones. -/
theorem markedIn_iff_lost (hk : IsKey rid) (hc : Complete db rid) {r : Record}
    (hr : ∀ uid, entryAt rid uid db = r.entry uid) (u : String) : MarkedIn db rid u ↔ r.Lost u := by
  have htime : ∀ e, entryAt rid u db = some e →
      (leafAt db ["rooms", rid, "users", u, "time"] ≠ some (.num 0) ↔ e.time ≠ 0) := by
    intro e he
    have ht := numAt_eq_some.mp (entryAt_eq_some he).2
    rw [roomUserTimeRef_key hk] at ht
    rw [ht]
    simp
  constructor
  · intro h
    obtain ⟨e, he⟩ := Option.isSome_iff_exists.mp (hc u h.1)
    exact ⟨e, by rw [← hr, he], (htime e he).mp h.2⟩
  · intro h
    obtain ⟨e, he, hne⟩ := h
    rw [← hr] at he
    exact ⟨hasData_entry hk (by rw [he]; rfl), (htime e he).mpr hne⟩

/-- **The readers see the record.** -/
theorem reads_of_record {r : Record} (hr : recordsAt db rid = some r) (hc : Complete db rid) :
    Reads db rid r := by
  obtain ⟨hk, hroom, hentry⟩ := recordsAt_eq_some.mp hr
  obtain ⟨hl, hb, hs⟩ := roomAt_eq_some.mp hroom
  have hvalue : hasValue db (roomRef rid) = true := by
    rw [roomRef_key hk]
    exact hasValue_iff.mpr ⟨["timeLimit"], _, hl⟩
  have hnum : ∀ f q, leafAt db ["rooms", rid, f] = some (.num q) →
      numAt db (roomRef rid ++ [f]) = some q := by
    intro f q hq
    rw [roomRef_key hk]
    exact numAt_eq_some.mpr hq
  have hlast : ∀ u, lastMarked db (roomUsersRef rid) = some u ↔ MarkedIn db rid u ∧
      ∀ v, MarkedIn db rid v → v = u ∨ keyLt δ v u = true := fun u => lastMarked_iff hk
  simp only [markedIn_iff_lost hk hc hentry] at hlast
  refine ⟨?_, ?_, ?_, fun u => ?_, fun u => ?_, fun u e he hne hall => ?_, fun hno => ?_⟩
  · rw [Room.init, if_pos hvalue, hnum _ _ hl, hnum _ _ hb, hnum _ _ hs]
  · rw [getInfoForRID, if_pos hvalue, hnum _ _ hl, hnum _ _ hb, hnum _ _ hs]
  · rw [started_iff, roomRef_key hk]
    simp only [List.cons_append, List.nil_append, hs]
    constructor
    · intro h hz
      exact h.2 (by rw [hz])
    · intro h
      exact ⟨⟨[], _, hs⟩, fun hz => h (Leaf.num.inj (Option.some.inj hz))⟩
  · rw [mem_children_iff, roomUsersRef_key hk, ← hentry]
    exact ⟨hc u, hasData_entry hk⟩
  · rw [← hentry]
    cases he : entryAt rid u db with
    | none =>
      -- without an entry nothing is at the user's key
      rw [Option.map_none]
      cases hn : strAt db (roomUsersRef rid ++ [u, "name"]) with
      | none => rfl
      | some name =>
        have hleaf := strAt_eq_some.mp hn
        rw [roomUsersRef_key hk] at hleaf
        have := hc u ⟨["name"], _, hleaf⟩
        rw [he] at this
        cases this
    | some e => exact (entryAt_eq_some he).1
  · rw [loserName_eq, (hlast u).mpr ⟨⟨e, he, hne⟩, hall⟩]
    simp only [Option.map_some, Option.getD_some, nameOf]
    rw [(entryAt_eq_some ((hentry u).trans he)).1]
    rfl
  · rw [loserName_eq]
    cases hm : lastMarked db (roomUsersRef rid) with
    | none => rfl
    | some u => exact absurd ((hlast u).mp hm).1 (hno u)

end

end Unplug.Room
