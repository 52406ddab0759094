import Unplug.Firebase.RoomOps
import Unplug.Machine.Interleave
import Unplug.Store.LeafTree

/-! # A room's users as a ledger

What a room is for: each user has one entry, the name it joined with and the
time of its loss, zero while it has not lost. Abstractly the entry of a user
evolves by that user's moves alone. The writes of the program refine this
ledger, and how the writes of different users interleave cannot be seen in it. -/
namespace Unplug.Room
open Unplug.Store Unplug.Firebase Unplug.Machine RealtimeDatabase

/-! ## The abstract ledger -/

structure Entry where
  name : String
  time : ℚ
  deriving DecidableEq

/-- What one user can do to its own entry. -/
inductive Move
  | join (name : String)
  | mark (timestamp : ℚ)
  deriving DecidableEq

/-- Joining starts the entry afresh; the first loss after that is recorded, and
no later one. -/
def Entry.next : Option Entry → Move → Option Entry
  | _, .join name => some ⟨name, 0⟩
  | some e, .mark timestamp => some (if e.time = 0 then ⟨e.name, timestamp⟩ else e)
  | none, .mark _ => none

/-- The move a write makes on the entry of `uid` in the room `rid`, if any. -/
def moveOf (rid uid : String) : RoomOp → Option Move
  | .joinRoomWithRID rid' user =>
    if rid' = rid ∧ user.uid = uid then some (.join user.name) else none
  | .mark rid' uid' timestamp => if rid' = rid ∧ uid' = uid then some (.mark timestamp) else none
  | _ => none

/-- The write is a join or a mark of `uid` in the room `rid`. -/
def own (rid uid : String) (op : RoomOp) : Bool := (moveOf rid uid op).isSome

/-- A user's own move on its entry is a join or a mark of its own. -/
theorem own_cases {rid uid : String} {op : RoomOp} (h : own rid uid op = true) :
    (∃ user, op = .joinRoomWithRID rid user ∧ user.uid = uid) ∨ ∃ ts, op = .mark rid uid ts := by
  cases op with
  | createAndJoinRoom => cases h
  | startRoom => cases h
  | joinRoomWithRID rid' user =>
    have hrw : rid' = rid ∧ user.uid = uid := by
      by_contra hne; simp [own, moveOf, hne] at h
    exact .inl ⟨user, by rw [hrw.1], hrw.2⟩
  | mark rid' uid' ts =>
    have hrw : rid' = rid ∧ uid' = uid := by
      by_contra hne; simp [own, moveOf, hne] at h
    exact .inr ⟨ts, by rw [hrw.1, hrw.2]⟩

/-! ## The database's entries -/

section
variable {δ : Type*} [RealtimeDatabase δ]

/-- Everything below a user's key in the users map. -/
def userSubtree (rid uid : String) (db : δ) : Path → Option Leaf :=
  fun q => leafAt db (roomUsersRef rid ++ uid :: q)

def timeAt (db : δ) (rid uid : String) : Option ℚ := numAt db (roomUserTimeRef rid uid)

def entryAt (rid uid : String) (db : δ) : Option Entry :=
  match strAt db (roomUsersRef rid ++ [uid, "name"]), timeAt db rid uid with
  | some name, some time => some ⟨name, time⟩
  | _, _ => none

/-- A user of the room with a recorded, non-zero time. -/
def lost (db : δ) (rid uid : String) : Prop := ∃ t, timeAt db rid uid = some t ∧ t ≠ 0

instance (db : δ) (rid uid : String) : Decidable (lost db rid uid) :=
  decidable_of_iff (∃ t ∈ timeAt db rid uid, t ≠ 0) (by simp [lost])

theorem userSubtree_key {rid : String} (h : IsKey rid) (uid : String) (db : δ) :
    userSubtree rid uid db = fun q => leafAt db ("rooms" :: rid :: "users" :: uid :: q) := by
  funext q; simp [userSubtree, roomUsersRef_key h]

theorem timeAt_eq_subtree (db : δ) (rid uid : String) :
    timeAt db rid uid = match userSubtree rid uid db ["time"] with
      | some (.num q) => some q
      | _ => none := rfl

/-- The entry is read off the user's own subtree. -/
theorem entryAt_congr {rid uid : String} {db db' : δ}
    (h : userSubtree rid uid db = userSubtree rid uid db') :
    entryAt rid uid db = entryAt rid uid db' := by
  have hn : strAt db (roomUsersRef rid ++ [uid, "name"]) =
      strAt db' (roomUsersRef rid ++ [uid, "name"]) := by
    unfold strAt
    rw [show leafAt db (roomUsersRef rid ++ [uid, "name"]) =
      leafAt db' (roomUsersRef rid ++ [uid, "name"]) from congrFun h ["name"]]
  unfold entryAt
  rw [hn, timeAt_eq_subtree db, timeAt_eq_subtree db', h]

/-! ## Writes after the room's creation -/

/-- A write that can follow the creation of the room `rid`: it addresses rooms
by single keys, and it is not another creation of this room. -/
def AfterCreate (rid : String) (op : RoomOp) : Prop :=
  IsKey op.rid ∧ ∀ room user, op ≠ .createAndJoinRoom rid room user

/-- A write that is no move of `uid` leaves the subtree of `uid` alone. -/
theorem userSubtree_frame {rid uid : String} (hrid : IsKey rid) {op : RoomOp}
    (hop : AfterCreate rid op) (hown : own rid uid op = false) (db : δ) :
    userSubtree rid uid (op.apply db) = userSubtree rid uid db := by
  rw [userSubtree_key hrid, userSubtree_key hrid]
  funext q
  obtain ⟨hk, hc⟩ := hop
  cases op with
  | createAndJoinRoom rid' room user =>
    have hne : rid ≠ rid' := fun he => hc room user (by rw [he])
    exact (leafAt_create_users db hk room user rid uid q).trans (if_neg hne)
  | joinRoomWithRID rid' user =>
    have hne : ¬ (rid = rid' ∧ uid = user.uid) := by
      rintro ⟨rfl, rfl⟩; simp [own, moveOf] at hown
    exact (leafAt_join_users db hk user rid uid q).trans (if_neg hne)
  | startRoom rid' ts => exact leafAt_start_users db hk ts rid uid q
  | mark rid' uid' ts =>
    have hne : ¬ (rid = rid' ∧ uid = uid') := by
      rintro ⟨rfl, rfl⟩; simp [own, moveOf] at hown
    exact leafAt_mark_apart db hk uid' ts q hne

/-- A move of `uid` acts on the subtree of `uid` by what that subtree holds. -/
theorem userSubtree_reads {rid uid : String} (hrid : IsKey rid) {op : RoomOp}
    (hown : own rid uid op = true) {db db' : δ}
    (h : userSubtree rid uid db = userSubtree rid uid db') :
    userSubtree rid uid (op.apply db) = userSubtree rid uid (op.apply db') := by
  rw [userSubtree_key hrid, userSubtree_key hrid] at h ⊢
  funext q
  cases op with
  | createAndJoinRoom _ _ _ => cases hown
  | startRoom _ _ => cases hown
  | joinRoomWithRID rid' user =>
    have hrw : rid' = rid ∧ user.uid = uid := by
      by_contra hne; simp [own, moveOf, hne] at hown
    obtain ⟨rfl, rfl⟩ := hrw
    rw [apply_join, apply_join, leafAt_join_users db hrid, leafAt_join_users db' hrid,
      if_pos ⟨rfl, rfl⟩,
      if_pos ⟨rfl, rfl⟩]
  | mark rid' uid' ts =>
    have hrw : rid' = rid ∧ uid' = uid := by
      by_contra hne; simp [own, moveOf, hne] at hown
    obtain ⟨rfl, rfl⟩ := hrw
    have ht : leafAt db ["rooms", rid', "users", uid', "time"] =
        leafAt db' ["rooms", rid', "users", uid', "time"] := congrFun h ["time"]
    rw [apply_mark, apply_mark, commitMark, commitMark, roomUserTimeRef_key hrid, ht]
    split
    · simp only [markBlock, if_true, setLeaf]
      -- below the time the written value decides, above it nothing is left, elsewhere `h` does
      by_cases hb : ["time"] <+: q
      · obtain ⟨r, rfl⟩ := hb
        have hb := fun d : δ => leafAt_setValue_below d ["rooms", rid', "users", uid', "time"]
          (Value.leaf (.num ts)) r
        exact (hb db).trans (hb db').symm
      · by_cases ha : q <+: ["time"]
        · have hne : q ≠ ["time"] := fun he => hb (he ▸ List.prefix_rfl)
          have ha' := fun d : δ => leafAt_setValue_above d
            ["rooms", rid', "users", uid', "time"] (Value.leaf (.num ts))
            ("rooms" :: rid' :: "users" :: uid' :: q) (by simpa using ha) (by simpa using hne)
          rw [ha' db, ha' db', congrFun h q]
        · have hap := fun d : δ => leafAt_setValue_apart d
            ["rooms", rid', "users", uid', "time"] (Value.leaf (.num ts))
            ("rooms" :: rid' :: "users" :: uid' :: q) (by simpa using hb) (by simpa using ha)
          rw [hap db, hap db', congrFun h q]
    · exact congrFun h q

/-- The users of a room are independent writers of its users map. -/
theorem users_independent {rid : String} (hrid : IsKey rid) :
    Independent (RoomOp.apply (δ := δ)) (own rid) (userSubtree rid) (AfterCreate rid) where
  frame _ db _ hop hown := userSubtree_frame hrid hop hown db
  reads _ _ _ _ _ hown h := userSubtree_reads hrid hown h

/-- **A write refines the ledger's move.** -/
theorem entryAt_apply {rid uid : String} (hrid : IsKey rid) {op : RoomOp}
    (hop : AfterCreate rid op) (db : δ) :
    entryAt rid uid (op.apply db) = match moveOf rid uid op with
      | some m => Entry.next (entryAt rid uid db) m
      | none => entryAt rid uid db := by
  cases hm : moveOf rid uid op with
  | none => exact entryAt_congr (userSubtree_frame hrid hop (by simp [own, hm]) db)
  | some m =>
    cases op with
    | createAndJoinRoom _ _ _ => cases hm
    | startRoom _ _ => cases hm
    | joinRoomWithRID rid' user =>
      simp only [moveOf] at hm
      split at hm
      · rename_i he
        obtain ⟨rfl, rfl⟩ := he
        cases hm
        simp only [entryAt, timeAt, strAt, numAt, roomUserTimeRef_key hrid, roomUsersRef_key hrid,
          apply_join, List.cons_append, List.nil_append, leafAt_join_users db hrid]
        simp [userEntry, Entry.next]
      · cases hm
    | mark rid' uid' ts =>
      simp only [moveOf] at hm
      split at hm
      · rename_i he
        obtain ⟨rfl, rfl⟩ := he
        cases hm
        have hn := leafAt_mark_users db hrid uid' ts rid' uid' (f := "name") [] (by decide)
        simp only [entryAt, timeAt, strAt, numAt, roomUserTimeRef_key hrid, roomUsersRef_key hrid,
          apply_mark, List.cons_append, List.nil_append, hn, leafAt_mark_time db hrid]
        cases leafAt db ["rooms", rid', "users", uid', "name"] with
        | none => rfl
        | some name =>
          cases name with
          | num _ => rfl
          | str name =>
            cases leafAt db ["rooms", rid', "users", uid', "time"] with
            | none => rfl
            | some time =>
              cases time with
              | str _ => rfl
              | num t => by_cases ht : t = 0 <;> simp [markBlock, Entry.next, ht]
      · cases hm

/-! ## Recorded times -/

/-- A time that is recorded after a write was recorded before, is the zero of a
fresh entry, or is what the write marks. -/
theorem timeAt_apply {rid uid : String} (hrid : IsKey rid) {op : RoomOp} (hop : IsKey op.rid)
    {db : δ} {t : ℚ} (h : timeAt (op.apply db) rid uid = some t) :
    timeAt db rid uid = some t ∨ t = 0 ∨ op = .mark rid uid t := by
  have hfresh : ∀ user : User, (userEntry user).leafAt ["time"] = some (.num t) → t = 0 := by
    intro user ht
    simpa [userEntry] using ht.symm
  simp only [timeAt, numAt_eq_some, roomUserTimeRef_key hrid] at h ⊢
  cases op with
  | createAndJoinRoom rid' room user =>
    simp only [RoomOp.rid] at hop
    rw [apply_create, leafAt_create_users db hop] at h
    split at h
    · split at h
      · exact .inr (.inl (hfresh user h))
      · cases h
    · exact .inl h
  | joinRoomWithRID rid' user =>
    simp only [RoomOp.rid] at hop
    rw [apply_join, leafAt_join_users db hop] at h
    split at h
    · exact .inr (.inl (hfresh user h))
    · exact .inl h
  | startRoom rid' ts =>
    simp only [RoomOp.rid] at hop
    rw [apply_start, leafAt_start_users db hop] at h
    exact .inl h
  | mark rid' uid' ts =>
    simp only [RoomOp.rid] at hop
    rw [apply_mark, leafAt_mark_time db hop] at h
    split at h
    · rename_i hku
      unfold markBlock at h
      split at h
      · cases h
        exact .inr (.inr (by rw [hku.1, hku.2]))
      · exact .inl h
    · exact .inl h

/-- A recorded loss stays recorded until its user joins the room again. -/
theorem lost_apply {rid uid : String} (hrid : IsKey rid) {op : RoomOp} (hop : AfterCreate rid op)
    {db : δ} (hjoin : ∀ user, op = .joinRoomWithRID rid user → user.uid ≠ uid)
    (h : lost db rid uid) : lost (op.apply db) rid uid := by
  cases hown : own rid uid op with
  | false =>
    obtain ⟨t, ht, hne⟩ := h
    refine ⟨t, ?_, hne⟩
    rw [timeAt_eq_subtree, userSubtree_frame hrid hop hown, ← timeAt_eq_subtree, ht]
  | true =>
    rcases own_cases hown with ⟨user, rfl, hu⟩ | ⟨ts, rfl⟩
    · exact absurd hu (hjoin user rfl)
    · -- the mark finds a time that is not zero
      obtain ⟨t, ht, hne⟩ := h
      have hleaf := numAt_eq_some.mp ht
      have hzero : leafAt db (roomUserTimeRef rid uid) ≠ some (.num 0) := by
        rw [hleaf]
        simpa using hne
      rw [apply_mark, commitMark, if_neg hzero]
      exact ⟨t, ht, hne⟩

/-- A whole run refines the ledger: the entry is what the user's moves make of it. -/
theorem entryAt_exec {rid uid : String} (hrid : IsKey rid) {ops : List RoomOp}
    (hops : ∀ op ∈ ops, AfterCreate rid op) (db : δ) :
    entryAt rid uid (exec RoomOp.apply db ops) =
      exec Entry.next (entryAt rid uid db) (ops.filterMap (moveOf rid uid)) := by
  induction ops generalizing db with
  | nil => rfl
  | cons op ops ih =>
    rw [exec_cons, ih (fun o ho => hops o (List.mem_cons_of_mem _ ho)),
      entryAt_apply hrid (hops op List.mem_cons_self)]
    cases hm : moveOf rid uid op with
    | none => rw [List.filterMap_cons_none hm]
    | some m => rw [List.filterMap_cons_some hm]; rfl

end

/-- Where a join is among the moves the entry is present at the end, under the
name of one of the joins. -/
theorem next_joined {moves : List Move} {e : Option Entry} {name : String}
    (h : Move.join name ∈ moves) :
    ∃ name' t, Move.join name' ∈ moves ∧ exec Entry.next e moves = some ⟨name', t⟩ := by
  induction moves using List.reverseRecOn with
  | nil => cases h
  | append_singleton moves m ih =>
    rw [exec_concat]
    cases m with
    | join last => exact ⟨last, 0, by simp, rfl⟩
    | mark ts =>
      obtain ⟨name', t, hm, he⟩ := ih (by simpa using h)
      rw [he]
      refine ⟨name', if t = 0 then ts else t, List.mem_append_left _ hm, ?_⟩
      by_cases ht : t = 0 <;> simp [Entry.next, ht]

end Unplug.Room
