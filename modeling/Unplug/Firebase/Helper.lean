import Unplug.Store.Database

/-! # FirebaseHelper: rooms in the realtime database

The models `User` and `Room` and the calls of `FirebaseHelper` that write or
read a room, as functions of the server's database. A rid arrives as a string:
`childByAutoId` makes it one key, a scanned QR code may make it a
slash-separated path, and `child:` splits it either way. -/
namespace Unplug.Firebase
open Unplug.Store RealtimeDatabase

/-! ## Models -/

/-- A logged-in user. The uid is a single database key. -/
structure User where
  name : String
  balance : ℚ
  uid : String
  deriving DecidableEq

def User.toDict (user : User) : Value :=
  .dict [("name", .str user.name), ("balance", .num user.balance)]

structure Room where
  timeLimit : ℚ
  betAmount : ℚ
  timeStart : ℚ
  deriving DecidableEq

def Room.toDict (room : Room) : Value :=
  .dict [("timeLimit", .num room.timeLimit), ("timeStart", .num room.timeStart),
    ("betAmount", .num room.betAmount)]

/-! ## Locations -/

/-- The pieces of a string between slashes. -/
def segments : List Char → List (List Char)
  | [] => [[]]
  | c :: cs =>
    if c = '/' then [] :: segments cs
    else match segments cs with
      | [] => [[c]]
      | seg :: rest => (c :: seg) :: rest

/-- The keys `child:` descends through for a relative path: a simple key, or a
deeper slash-separated path, whose empty pieces name nothing. -/
def childPath (s : String) : Path :=
  ((segments s.toList).filter fun seg => seg ≠ []).map String.ofList

/-- A string that is one key, as the ids of `childByAutoId` are. -/
def IsKey (s : String) : Prop := s ≠ "" ∧ '/' ∉ s.toList

instance (s : String) : Decidable (IsKey s) := inferInstanceAs (Decidable (_ ∧ _))

theorem segments_of_no_slash {cs : List Char} (h : '/' ∉ cs) : segments cs = [cs] := by
  induction cs with
  | nil => rfl
  | cons c cs ih =>
    obtain ⟨hc, hcs⟩ : '/' ≠ c ∧ '/' ∉ cs := by simpa using h
    simp [segments, ih hcs, Ne.symm hc]

theorem childPath_key {s : String} (h : IsKey s) : childPath s = [s] := by
  have hne : s.toList ≠ [] := fun he => h.1 (String.toList_eq_nil_iff.mp he)
  simp [childPath, segments_of_no_slash h.2, hne]

def roomRef (rid : String) : Path := "rooms" :: childPath rid

def roomUsersRef (rid : String) : Path := roomRef rid ++ ["users"]

def roomUserTimeRef (rid uid : String) : Path := roomUsersRef rid ++ [uid, "time"]

section
variable {δ : Type*} [RealtimeDatabase δ]

/-! ## Reads -/

def numAt (db : δ) (p : Path) : Option ℚ :=
  match leafAt db p with
  | some (.num q) => some q
  | _ => none

def strAt (db : δ) (p : Path) : Option String :=
  match leafAt db p with
  | some (.str s) => some s
  | _ => none

/-- The snapshot's value is not `NSNull`. -/
def hasValue (db : δ) (p : Path) : Bool := (leafAt db p).isSome || !(children db p).isEmpty

/-- What `getInfoForRID:` hands its completion: `betAmount`, `startTime` and
`timeLimit`; a room without data never runs the completion. -/
def getInfoForRID (db : δ) (ref : Path) : Option (Option ℚ × Option ℚ × Option ℚ) :=
  if hasValue db ref then
    some (numAt db (ref ++ ["betAmount"]), numAt db (ref ++ ["timeStart"]),
      numAt db (ref ++ ["timeLimit"]))
  else none

/-! ## Writes -/

/-- `@{@"name" : currentUser.name, @"time" : @0}` -/
def userEntry (currentUser : User) : Value :=
  .dict [("name", .str currentUser.name), ("time", .num 0)]

/-- The dictionary `createAndJoinRoom` sets at the new room. -/
def roomValue (room : Room) (currentUser : User) : Value :=
  room.toDict.setForKey "users" (.dict [(currentUser.uid, userEntry currentUser)])

def createAndJoinRoom (db : δ) (rid : String) (room : Room) (currentUser : User) : δ :=
  setValue db (roomRef rid) (roomValue room currentUser)

def joinRoomWithRID (db : δ) (rid : String) (currentUser : User) : δ :=
  updateChildValues db (roomUsersRef rid) [(currentUser.uid, userEntry currentUser)]

def startRoom (db : δ) (rid : String) (timestamp : ℚ) : δ :=
  updateChildValues db (roomRef rid) [("timeStart", .num timestamp)]

/-- The transaction block of `appBackgrounded`: a zero becomes the time of the
loss, anything else, absent data included, is returned as it came. -/
def markBlock (currentTime : Option Leaf) (now : ℚ) : Option Leaf :=
  if currentTime = some (.num 0) then some (.num now) else currentTime

/-- The server commits the block's result on its current value. A value that
the block returns unchanged leaves the tree as it is. -/
def commitMark (db : δ) (rid uid : String) (timestamp : ℚ) : δ :=
  if leafAt db (roomUserTimeRef rid uid) = some (.num 0) then
    setLeaf db (roomUserTimeRef rid uid) (markBlock (some (.num 0)) timestamp)
  else db

/-- A write to a room, as the server applies it. -/
inductive RoomOp
  | createAndJoinRoom (rid : String) (room : Room) (user : User)
  | joinRoomWithRID (rid : String) (user : User)
  | startRoom (rid : String) (timestamp : ℚ)
  | mark (rid uid : String) (timestamp : ℚ)
  deriving DecidableEq

def RoomOp.rid : RoomOp → String
  | .createAndJoinRoom rid _ _ => rid
  | .joinRoomWithRID rid _ => rid
  | .startRoom rid _ => rid
  | .mark rid _ _ => rid

def RoomOp.apply (db : δ) : RoomOp → δ
  | .createAndJoinRoom rid room user => Firebase.createAndJoinRoom db rid room user
  | .joinRoomWithRID rid user => Firebase.joinRoomWithRID db rid user
  | .startRoom rid timestamp => Firebase.startRoom db rid timestamp
  | .mark rid uid timestamp => commitMark db rid uid timestamp

/-! ## What a write leaves at a location -/

theorem hasValue_iff {db : δ} {p : Path} : hasValue db p = true ↔ HasData db p := by
  unfold hasValue
  constructor
  · intro h
    rcases Bool.or_eq_true_iff.mp h with h | h
    · obtain ⟨l, hl⟩ := Option.isSome_iff_exists.mp h
      exact ⟨[], l, by simpa using hl⟩
    · have hne : children db p ≠ [] := by simpa using h
      obtain ⟨k, hk⟩ := List.exists_mem_of_ne_nil _ hne
      obtain ⟨q, l, hl⟩ := (mem_children db p k).mp hk
      exact ⟨k :: q, l, hl⟩
  · intro hx
    obtain ⟨q, l, hl⟩ := hx
    cases q with
    | nil => simp [show leafAt db p = some l by simpa using hl]
    | cons k q =>
      have hk : k ∈ children db p := (mem_children db p k).mpr ⟨q, l, hl⟩
      have hne : children db p ≠ [] := List.ne_nil_of_mem hk
      simp [hne]

theorem numAt_eq_some {db : δ} {p : Path} {q : ℚ} :
    numAt db p = some q ↔ leafAt db p = some (.num q) := by
  unfold numAt; split <;> simp_all

theorem strAt_eq_some {db : δ} {p : Path} {s : String} :
    strAt db p = some s ↔ leafAt db p = some (.str s) := by
  unfold strAt; split <;> simp_all

theorem roomRef_key {rid : String} (h : IsKey rid) : roomRef rid = ["rooms", rid] := by
  simp [roomRef, childPath_key h]

theorem roomUsersRef_key {rid : String} (h : IsKey rid) :
    roomUsersRef rid = ["rooms", rid, "users"] := by
  simp [roomUsersRef, roomRef_key h]

theorem roomUserTimeRef_key {rid uid : String} (h : IsKey rid) :
    roomUserTimeRef rid uid = ["rooms", rid, "users", uid, "time"] := by
  simp [roomUserTimeRef, roomUsersRef_key h]

@[simp] theorem roomValue_users (room : Room) (user : User) (u : String) (q : Path) :
    (roomValue room user).leafAt ("users" :: u :: q) =
      if u = user.uid then (userEntry user).leafAt q else none := by
  simp [roomValue, Room.toDict]

end

end Unplug.Firebase
