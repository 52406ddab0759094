import Unplug.Firebase.Helper

/-! # What the models read from a snapshot

`init:` of `User` and `Room` reads a snapshot property by property: nothing from a null
value, and nil where a key is missing. A user's record is written by `createUser:`. -/
namespace Unplug.Firebase
open Unplug.Store RealtimeDatabase

/-- The properties of a `User`, each of which can be nil. -/
structure UserProperties where
  name : Option String
  balance : Option ℚ
  uid : Option String
  deriving DecidableEq

/-- The properties of a `Room`. -/
structure RoomProperties where
  timeLimit : Option ℚ
  betAmount : Option ℚ
  timeStart : Option ℚ
  deriving DecidableEq

/-- A user's properties, all there. -/
def User.properties (user : User) : UserProperties :=
  ⟨some user.name, some user.balance, some user.uid⟩

/-- The user, where no property is nil. -/
def UserProperties.user : UserProperties → Option User
  | ⟨some name, some balance, some uid⟩ => some ⟨name, balance, uid⟩
  | _ => none

@[simp] theorem user_properties (user : User) : user.properties.user = some user := rfl

def userRef (uid : String) : Path := "users" :: childPath uid

section
variable {δ : Type*} [RealtimeDatabase δ]

/-- `[[User alloc] init:snapshot]`; the uid is the snapshot's key. -/
def User.init (db : δ) (ref : Path) : Option UserProperties :=
  if hasValue db ref then
    some ⟨strAt db (ref ++ ["name"]), numAt db (ref ++ ["balance"]), ref.getLast?⟩
  else none

/-- `[[Room alloc] init:snapshot]` -/
def Room.init (db : δ) (ref : Path) : Option RoomProperties :=
  if hasValue db ref then
    some ⟨numAt db (ref ++ ["timeLimit"]), numAt db (ref ++ ["betAmount"]),
      numAt db (ref ++ ["timeStart"])⟩
  else none

/-- The user that `getUserWithUID:` hands its completion. -/
def getUserWithUID (db : δ) (uid : String) : Option UserProperties := User.init db (userRef uid)

def createUser (db : δ) (newUser : User) : δ := setValue db (userRef newUser.uid) newUser.toDict

theorem userRef_key {uid : String} (h : IsKey uid) : userRef uid = ["users", uid] := by
  simp [userRef, childPath_key h]

theorem leafAt_createUser (db : δ) {newUser : User} (h : IsKey newUser.uid) (uid : String)
    (q : Path) :
    leafAt (createUser db newUser) ("users" :: uid :: q) =
      if uid = newUser.uid then newUser.toDict.leafAt q else leafAt db ("users" :: uid :: q) := by
  unfold createUser
  rw [userRef_key h]
  by_cases hu : uid = newUser.uid
  · subst hu
    rw [if_pos rfl]
    exact leafAt_setValue_below db ["users", newUser.uid] _ _
  · rw [if_neg hu]
    exact leafAt_setValue_of_parts db _ ["users"] [] _ (Ne.symm hu)

/-- A user is read back as it was written, and the other records stay. -/
theorem getUserWithUID_createUser (db : δ) {newUser : User} (h : IsKey newUser.uid) {uid : String}
    (hk : IsKey uid) :
    getUserWithUID (createUser db newUser) uid =
      if uid = newUser.uid then some newUser.properties else getUserWithUID db uid := by
  have hleaf := leafAt_createUser db h uid
  unfold getUserWithUID User.init
  rw [userRef_key hk]
  by_cases hu : uid = newUser.uid
  · subst hu
    simp only [if_true] at hleaf
    have hdata : HasData (createUser db newUser) ["users", newUser.uid] :=
      ⟨["name"], .str newUser.name, (hleaf ["name"]).trans (by simp [User.toDict])⟩
    rw [if_pos (hasValue_iff.mpr hdata), if_pos rfl]
    refine congrArg some (congrArg₂ (UserProperties.mk · · _) ?_ ?_)
    · exact strAt_eq_some.mpr ((hleaf ["name"]).trans (by simp [User.toDict]))
    · exact numAt_eq_some.mpr ((hleaf ["balance"]).trans (by simp [User.toDict]))
  · simp only [if_neg hu] at hleaf
    have hvalue : hasValue (createUser db newUser) ["users", uid] = hasValue db ["users", uid] := by
      rw [Bool.eq_iff_iff, hasValue_iff, hasValue_iff]
      exact exists_congr fun q => exists_congr fun l => by
        rw [show ["users", uid] ++ q = "users" :: uid :: q from rfl, hleaf q]
    have hname : strAt (createUser db newUser) ["users", uid, "name"] =
        strAt db ["users", uid, "name"] := by
      unfold strAt
      rw [hleaf]
    have hbalance : numAt (createUser db newUser) ["users", uid, "balance"] =
        numAt db ["users", uid, "balance"] := by
      unfold numAt
      rw [hleaf]
    rw [if_neg hu, hvalue]
    simp only [List.cons_append, List.nil_append, hname, hbalance]

end

end Unplug.Firebase
