import Unplug.App.Controllers
import Unplug.Firebase.RoomOps

/-! # Justified losses

A database of rooms is justified by a set of players and a set of guilty uids
when every name in it is a player's own and every entry with a time other than
zero is a guilty one's. Honest writes keep it so, and what the listener reads
off it is the name of a guilty player. -/
namespace Unplug.Room
open Unplug.Store Unplug.Firebase Unplug.App RealtimeDatabase

section
variable {δ : Type*} [RealtimeDatabase δ] {players : User → Prop} {guilty : String → Prop}

structure Justified (players : User → Prop) (guilty : String → Prop) (db : δ) : Prop where
  name : ∀ k u l, leafAt db ["rooms", k, "users", u, "name"] = some l →
    ∃ user, players user ∧ user.uid = u ∧ l = .str user.name
  time : ∀ k u, HasData db ["rooms", k, "users", u] →
    leafAt db ["rooms", k, "users", u, "time"] = some (.num 0) ∨ guilty u

/-- A write that enters a player under its own uid and name, or marks a guilty one. -/
def Honest (players : User → Prop) (guilty : String → Prop) : RoomOp → Prop
  | .createAndJoinRoom rid _ user => IsKey rid ∧ players user
  | .joinRoomWithRID rid user => IsKey rid ∧ players user
  | .startRoom rid _ => IsKey rid
  | .mark rid uid _ => IsKey rid ∧ guilty uid

omit [RealtimeDatabase δ] in
theorem Honest.isKey {op : RoomOp} (h : Honest players guilty op) : IsKey op.rid := by
  cases op with
  | startRoom => exact h
  | createAndJoinRoom | joinRoomWithRID | mark => exact h.1

theorem justified_empty : Justified players guilty (RealtimeDatabase.empty : δ) where
  name _ _ _ h := by rw [leafAt_empty] at h; cases h
  time _ _ h := by
    obtain ⟨q, l, hl⟩ := h
    rw [leafAt_empty] at hl; cases hl

theorem Justified.mono {db : δ} {guilty' : String → Prop} (h : Justified players guilty db)
    (hg : ∀ u, guilty u → guilty' u) : Justified players guilty' db where
  name := h.name
  time k u hu := (h.time k u hu).imp_right (hg u)

/-- An entry that is a player's own, with no loss in it. -/
theorem userEntry_justified {user : User} (hp : players user) :
    (∀ l, (userEntry user).leafAt ["name"] = some l →
      ∃ user', players user' ∧ user'.uid = user.uid ∧ l = .str user'.name) ∧
      (userEntry user).leafAt ["time"] = some (.num 0) := by
  refine ⟨fun l hl => ⟨user, hp, rfl, ?_⟩, by simp [userEntry]⟩
  simpa [userEntry] using hl.symm

theorem Justified.apply {db : δ} (h : Justified players guilty db) {op : RoomOp}
    (hop : Honest players guilty op) : Justified players guilty (op.apply db) := by
  cases op with
  | createAndJoinRoom rid room user =>
    obtain ⟨hk, hp⟩ := hop
    have hleaf := leafAt_create_users db hk room user
    refine ⟨fun k u l hl => ?_, fun k u hu => ?_⟩
    · rw [apply_create, hleaf] at hl
      split at hl
      · split at hl
        · rename_i hu
          exact hu ▸ (userEntry_justified hp).1 l hl
        · cases hl
      · exact h.name k u l hl
    · obtain ⟨q, l, hl⟩ := hu
      simp only [List.cons_append, List.nil_append, apply_create, hleaf] at hl ⊢
      split
      · rename_i hkr
        rw [if_pos hkr] at hl
        split at hl
        · rename_i hu
          rw [if_pos hu]
          exact .inl (userEntry_justified hp).2
        · cases hl
      · rename_i hkr
        rw [if_neg hkr] at hl
        exact h.time k u ⟨q, l, hl⟩
  | joinRoomWithRID rid user =>
    obtain ⟨hk, hp⟩ := hop
    have hleaf := leafAt_join_users db hk user
    refine ⟨fun k u l hl => ?_, fun k u hu => ?_⟩
    · rw [apply_join, hleaf] at hl
      split at hl
      · rename_i hku
        exact hku.2 ▸ (userEntry_justified hp).1 l hl
      · exact h.name k u l hl
    · obtain ⟨q, l, hl⟩ := hu
      simp only [List.cons_append, List.nil_append, apply_join, hleaf] at hl ⊢
      split
      · exact .inl (userEntry_justified hp).2
      · rename_i hku
        rw [if_neg hku] at hl
        exact h.time k u ⟨q, l, hl⟩
  | startRoom rid timestamp =>
    have hleaf := leafAt_start_users db hop timestamp
    refine ⟨fun k u l hl => ?_, fun k u hu => ?_⟩
    · rw [apply_start, hleaf] at hl
      exact h.name k u l hl
    · obtain ⟨q, l, hl⟩ := hu
      simp only [List.cons_append, List.nil_append, apply_start, hleaf] at hl ⊢
      exact h.time k u ⟨q, l, hl⟩
  | mark rid uid timestamp =>
    obtain ⟨hk, hg⟩ := hop
    refine ⟨fun k u l hl => ?_, fun k u hu => ?_⟩
    · rw [apply_mark, leafAt_mark_users db hk uid timestamp k u [] (by decide)] at hl
      exact h.name k u l hl
    · by_cases hku : k = rid ∧ u = uid
      · exact .inr (hku.2 ▸ hg)
      · have hleaf := fun q => leafAt_mark_apart db hk uid timestamp q hku
        obtain ⟨q, l, hl⟩ := hu
        simp only [List.cons_append, List.nil_append, apply_mark, hleaf] at hl ⊢
        exact h.time k u ⟨q, l, hl⟩

/-- An optimistic mark of a guilty one, whatever value it was computed from. -/
theorem Justified.setTime {db : δ} (h : Justified players guilty db) {rid uid : String}
    (hk : IsKey rid) (hg : guilty uid) (value : Option Leaf) :
    Justified players guilty (setLeaf db (roomUserTimeRef rid uid) value) := by
  refine ⟨fun k u l hl => ?_, fun k u hu => ?_⟩
  · rw [leafAt_setTime_users db hk uid value k u [] (by decide)] at hl
    exact h.name k u l hl
  · by_cases hku : k = rid ∧ u = uid
    · exact .inr (hku.2 ▸ hg)
    · have hleaf := fun q => leafAt_setTime_apart db hk uid value q hku
      obtain ⟨q, l, hl⟩ := hu
      simp only [List.cons_append, List.nil_append, hleaf] at hl ⊢
      exact h.time k u ⟨q, l, hl⟩

/-- **The loser the listener sees is a guilty player**, the last marked one. -/
theorem Justified.loser {db : δ} (h : Justified players guilty db) {rid : String} (hk : IsKey rid)
    (hn : loserName db (roomUsersRef rid) ≠ "") :
    ∃ uid, lastMarked db (roomUsersRef rid) = some uid ∧
      strAt db ["rooms", rid, "users", uid, "name"] = some (loserName db (roomUsersRef rid)) ∧
      (∃ user, players user ∧ user.uid = uid ∧ user.name = loserName db (roomUsersRef rid)) ∧
      guilty uid := by
  rw [loserName_eq] at hn ⊢
  cases hl : lastMarked db (roomUsersRef rid) with
  | none => rw [hl] at hn; exact absurd rfl hn
  | some uid =>
    rw [hl] at hn
    obtain ⟨hmem, hmarked⟩ := lastMarked_mem hl
    simp only [marked, nameOf, roomUsersRef_key hk, List.cons_append, List.nil_append,
      Option.map_some, Option.getD_some, decide_eq_true_eq] at hn hmarked ⊢
    have hdata : HasData db ["rooms", rid, "users", uid] := by
      have := mem_children_iff.mp hmem
      rwa [roomUsersRef_key hk] at this
    cases hs : strAt db ["rooms", rid, "users", uid, "name"] with
    | none => rw [hs] at hn; exact absurd rfl hn
    | some name =>
      obtain ⟨user, hp, hu, hname⟩ := h.name rid uid _ (strAt_eq_some.mp hs)
      refine ⟨uid, rfl, hs, ⟨user, hp, hu, ?_⟩, (h.time rid uid hdata).resolve_left hmarked⟩
      cases hname
      rfl

end

end Unplug.Room
