import Unplug.Room.Record

/-! # What rooms keep

A room has its terms, its start once it is started, and its players under their names. A
write adds to the rooms when it creates one that is not there, starts one at a time, or
enters a player under the name it has. Such a write takes nothing back. -/
namespace Unplug.Room
open Unplug.Store Unplug.Firebase

/-- `r'` has what `r` has. -/
structure Record.Kept (r r' : Record) : Prop where
  timeLimit : r'.room.timeLimit = r.room.timeLimit
  betAmount : r'.room.betAmount = r.room.betAmount
  started : r.room.timeStart ≠ 0 → r'.room.timeStart ≠ 0
  names : ∀ uid e, r.entry uid = some e → ∃ e', r'.entry uid = some e' ∧ e'.name = e.name

theorem Record.Kept.refl (r : Record) : r.Kept r where
  timeLimit := rfl
  betAmount := rfl
  started := id
  names _ e he := ⟨e, he, rfl⟩

theorem Record.Kept.trans {r r' r'' : Record} (h : r.Kept r') (h' : r'.Kept r'') : r.Kept r'' where
  timeLimit := h'.timeLimit.trans h.timeLimit
  betAmount := h'.betAmount.trans h.betAmount
  started hs := h'.started (h.started hs)
  names uid e he := by
    obtain ⟨e', he', hn⟩ := h.names uid e he
    obtain ⟨e'', he'', hn'⟩ := h'.names uid e' he'
    exact ⟨e'', he'', hn'.trans hn⟩

/-- A move under the entry's own name. -/
theorem Record.kept_move {r : Record} {uid : String} {m : Move}
    (hm : ∀ name e, m = .join name → r.entry uid = some e → e.name = name) :
    r.Kept (r.move uid m) where
  timeLimit := rfl
  betAmount := rfl
  started := id
  names u e he := by
    by_cases hu : u = uid
    · subst hu
      simp only [Record.move, Function.update_self, he]
      cases m with
      | join name => exact ⟨_, rfl, (hm name e rfl he).symm⟩
      | mark timestamp =>
        refine ⟨_, rfl, ?_⟩
        split <;> rfl
    · exact ⟨e, (Function.update_of_ne hu _ _).trans he, rfl⟩

/-- The rooms have what they had. -/
def Records.Kept (records records' : Records) : Prop :=
  ∀ rid r, records rid = some r → ∃ r', records' rid = some r' ∧ r.Kept r'

theorem Records.Kept.refl (records : Records) : records.Kept records :=
  fun _ r hr => ⟨r, hr, .refl r⟩

theorem Records.Kept.trans {a b c : Records} (h : a.Kept b) (h' : b.Kept c) : a.Kept c := by
  intro rid r hr
  obtain ⟨r', hr', hk⟩ := h rid r hr
  obtain ⟨r'', hr'', hk'⟩ := h' rid r' hr'
  exact ⟨r'', hr'', hk.trans hk'⟩

/-- The write adds to the rooms. -/
def Records.Adds (records : Records) : RoomOp → Prop
  | .createAndJoinRoom rid _ _ => records rid = none
  | .joinRoomWithRID rid user => ∀ r e, records rid = some r → r.entry user.uid = some e →
      e.name = user.name
  | .startRoom _ timestamp => timestamp ≠ 0
  | .mark _ _ _ => True

/-- An update of one record keeps what the record keeps. -/
theorem kept_update {records : Records} {rid : String} {f : Record → Record}
    (h : ∀ r, records rid = some r → r.Kept (f r)) :
    records.Kept (Function.update records rid ((records rid).map f)) := by
  intro k r hr
  by_cases hk : k = rid
  · subst hk
    exact ⟨f r, by rw [Function.update_self, hr]; rfl, h r hr⟩
  · exact ⟨r, by rw [Function.update_of_ne hk]; exact hr, .refl r⟩

/-- **What adds takes nothing back.** -/
theorem Records.Adds.kept {records : Records} {op : RoomOp} (h : records.Adds op) :
    records.Kept (records.apply op) := by
  cases op with
  | createAndJoinRoom rid room user =>
    intro k r hr
    have hne : k ≠ rid := by
      rintro rfl
      rw [show records k = none from h] at hr
      cases hr
    exact ⟨r, by rw [Records.apply, Function.update_of_ne hne]; exact hr, .refl r⟩
  | joinRoomWithRID rid user =>
    refine kept_update fun r hr => Record.kept_move fun name e hm he => ?_
    cases hm
    exact h r e hr he
  | startRoom rid timestamp =>
    exact kept_update fun r _ => ⟨rfl, rfl, fun _ => h, fun _ e he => ⟨e, he, rfl⟩⟩
  | mark rid uid timestamp =>
    exact kept_update fun r _ => Record.kept_move fun _ _ hm => by cases hm

/-- `uid` is in the room under the name. -/
def Records.Has (records : Records) (rid uid name : String) : Prop :=
  ∃ r e, records rid = some r ∧ r.entry uid = some e ∧ e.name = name

instance (records : Records) (rid uid name : String) : Decidable (records.Has rid uid name) :=
  decidable_of_iff (((records rid).bind (·.entry uid)).map (·.name) = some name) (by
    simp only [Records.Has, Option.map_eq_some_iff, Option.bind_eq_some_iff]
    constructor
    · rintro ⟨e, ⟨r, hr, he⟩, hn⟩
      exact ⟨r, e, hr, he, hn⟩
    · rintro ⟨r, e, hr, he, hn⟩
      exact ⟨e, ⟨r, hr, he⟩, hn⟩)

theorem Records.Kept.has {records records' : Records} (h : records.Kept records')
    {rid uid name : String} (hm : records.Has rid uid name) : records'.Has rid uid name := by
  obtain ⟨r, e, hr, he, rfl⟩ := hm
  obtain ⟨r', hr', hk⟩ := h rid r hr
  obtain ⟨e', he', hn⟩ := hk.names uid e he
  exact ⟨r', e', hr', he', hn⟩

/-- A create that is taken, and a join to a room that is there, puts its user in. -/
theorem has_of_opens {records : Records} {op : RoomOp} {user : User}
    (h : (∃ rid room, op = .createAndJoinRoom rid room user) ∨
      ∃ rid, op = .joinRoomWithRID rid user ∧ records rid ≠ none) :
    (records.apply op).Has op.rid user.uid user.name := by
  rcases h with ⟨rid, room, rfl⟩ | ⟨rid, rfl, hr⟩
  · exact ⟨_, ⟨user.name, 0⟩, Function.update_self .., by simp [Record.move, Entry.next], rfl⟩
  · obtain ⟨r, hr⟩ := Option.ne_none_iff_exists'.mp hr
    refine ⟨r.move user.uid (.join user.name), ⟨user.name, 0⟩, ?_,
      by simp [Record.move, Entry.next], rfl⟩
    simp [Records.apply, RoomOp.rid, hr]

/-! ## Losses -/

/-- A move makes nobody lose but the player it marks. -/
theorem Record.lost_move {r : Record} {uid u : String} {m : Move} (h : (r.move u m).Lost uid) :
    r.Lost uid ∨ u = uid ∧ ∃ timestamp, m = .mark timestamp := by
  obtain ⟨e, he, hne⟩ := h
  by_cases hu : uid = u
  · subst hu
    cases m with
    | join name =>
      simp only [Record.move, Function.update_self, Entry.next, Option.some.injEq] at he
      exact absurd (he ▸ rfl) hne
    | mark timestamp => exact .inr ⟨rfl, timestamp, rfl⟩
  · exact .inl ⟨e, (Function.update_of_ne hu _ _).symm.trans he, hne⟩

/-- A write makes nobody lose but the player it marks. -/
theorem lost_of_apply {records : Records} {op : RoomOp} {rid uid : String} {r' : Record}
    (hr : records.apply op rid = some r') (h : r'.Lost uid) :
    (∃ r, records rid = some r ∧ r.Lost uid) ∨ ∃ timestamp, op = .mark rid uid timestamp := by
  by_cases hrid : op.rid = rid
  swap
  · rw [records_apart _ hrid] at hr
    exact .inl ⟨r', hr, h⟩
  subst hrid
  have hmoved : ∀ (u : String) (m : Move), (records op.rid).map (·.move u m) = some r' →
      (∃ r, records op.rid = some r ∧ r.Lost uid) ∨ u = uid ∧ ∃ timestamp, m = .mark timestamp := by
    intro u m hmap
    obtain ⟨r, hr₀, rfl⟩ := Option.map_eq_some_iff.mp hmap
    exact (Record.lost_move h).imp_left fun hlost => ⟨r, hr₀, hlost⟩
  cases op with
  | createAndJoinRoom rid room user =>
    simp only [Records.apply, RoomOp.rid, Function.update_self, Option.some.injEq] at hr
    subst hr
    rcases Record.lost_move h with ⟨e, he, -⟩ | ⟨-, t, ht⟩
    · cases he
    · cases ht
  | joinRoomWithRID rid user =>
    simp only [Records.apply, RoomOp.rid, Function.update_self] at hr
    rcases hmoved user.uid (.join user.name) hr with hlost | ⟨-, t, ht⟩
    · exact .inl hlost
    · cases ht
  | startRoom rid timestamp =>
    simp only [Records.apply, RoomOp.rid, Function.update_self] at hr
    obtain ⟨r, hr₀, rfl⟩ := Option.map_eq_some_iff.mp hr
    exact .inl ⟨r, hr₀, h⟩
  | mark rid u timestamp =>
    simp only [Records.apply, RoomOp.rid, Function.update_self] at hr
    rcases hmoved u (.mark timestamp) hr with hlost | ⟨hu, -⟩
    · exact .inl hlost
    · exact .inr ⟨timestamp, by rw [hu]; rfl⟩

end Unplug.Room
