import Unplug.Firebase.RoomOps

/-! # The schema of the rooms

What the readers of a room rely on without checking: three numbers, and a users
map whose every entry has a name and a time. A write keeps it exactly where its
location fits: at a user of an existing room or the start time of one, or
inside a part of a room that the schema says nothing about. A scanned text that
names no room, or that runs into one of the fields, does not fit. -/
namespace Unplug.Room
open Unplug.Store Unplug.Firebase RealtimeDatabase

/-! ## The schema -/

/-- The fields of a room that hold a number. -/
def numericFields : List String := ["timeLimit", "betAmount", "timeStart"]

section
variable {δ : Type*} [RealtimeDatabase δ]

structure RoomSchema (db : δ) (r : String) : Prop where
  fields : ∀ f ∈ numericFields, ∃ q, leafAt db ["rooms", r, f] = some (.num q)
  users : HasData db ["rooms", r, "users"] ∧ leafAt db ["rooms", r, "users"] = none
  entries : ∀ u, HasData db ["rooms", r, "users", u] →
    (∃ name, leafAt db ["rooms", r, "users", u, "name"] = some (.str name)) ∧
      ∃ time, leafAt db ["rooms", r, "users", u, "time"] = some (.num time)

/-- Every child of `rooms` is a room. -/
def Schema (db : δ) : Prop := ∀ r, HasData db ["rooms", r] → RoomSchema db r

/-! ## Where a write fits -/

/-- A location inside the room `r` that the schema says nothing about: below a
child that is no field, or inside an entry below a child that is neither the
name nor the time. -/
def Harmless (db : δ) (r f : String) (rest : Path) : Prop :=
  HasData db ["rooms", r] ∧ f ∉ numericFields ∧
    (f = "users" → ∃ u g q, rest = u :: g :: q ∧ HasData db ["rooms", r, "users", u] ∧
      g ≠ "name" ∧ g ≠ "time")

def Fits (db : δ) : RoomOp → Prop
  | .createAndJoinRoom _ _ _ => True
  | .joinRoomWithRID rid user =>
    (∃ r u, childPath rid ++ ["users", user.uid] = [r, "users", u] ∧ HasData db ["rooms", r]) ∨
      ∃ r f rest, childPath rid ++ ["users", user.uid] = r :: f :: rest ∧ Harmless db r f rest
  | .startRoom rid _ =>
    (∃ r, childPath rid = [r] ∧ HasData db ["rooms", r]) ∨
      ∃ r f rest, childPath rid ++ ["timeStart"] = r :: f :: rest ∧ Harmless db r f rest
  | .mark _ _ _ => True

/-! ## What a write inside a room leaves alone -/

variable (db : δ) (v : Value) {r f u g : String}

theorem leafAt_other_room {r' : String} (h : r ≠ r') (a b : Path) :
    leafAt (setValue db ("rooms" :: r :: a) v) ("rooms" :: r' :: b) =
      leafAt db ("rooms" :: r' :: b) :=
  leafAt_setValue_of_parts db v ["rooms"] a b h

theorem leafAt_other_child {f' : String} (h : f ≠ f') (a b : Path) :
    leafAt (setValue db ("rooms" :: r :: f :: a) v) ("rooms" :: r :: f' :: b) =
      leafAt db ("rooms" :: r :: f' :: b) :=
  leafAt_setValue_of_parts db v ["rooms", r] a b h

theorem leafAt_other_user {u' : String} (h : u ≠ u') (a b : Path) :
    leafAt (setValue db ("rooms" :: r :: "users" :: u :: a) v)
        ("rooms" :: r :: "users" :: u' :: b) =
      leafAt db ("rooms" :: r :: "users" :: u' :: b) :=
  leafAt_setValue_of_parts db v ["rooms", r, "users"] a b h

theorem leafAt_other_key {g' : String} (h : g ≠ g') (a b : Path) :
    leafAt (setValue db ("rooms" :: r :: "users" :: u :: g :: a) v)
        ("rooms" :: r :: "users" :: u :: g' :: b) =
      leafAt db ("rooms" :: r :: "users" :: u :: g' :: b) :=
  leafAt_setValue_of_parts db v ["rooms", r, "users", u] a b h

variable {db v}

theorem hasData_of_same {db' : δ} {p : Path} (h : ∀ b, leafAt db' (p ++ b) = leafAt db (p ++ b)) :
    HasData db' p ↔ HasData db p := by
  unfold HasData
  simp only [h]

theorem hasData_setValue_below (hv : ∃ q, v.leafAt q ≠ none) (p a : Path) :
    HasData (setValue db (p ++ a) v) p := by
  obtain ⟨q, hq⟩ := hv
  obtain ⟨l, hl⟩ := Option.ne_none_iff_exists'.mp hq
  exact ⟨a ++ q, l, by rw [← List.append_assoc, leafAt_setValue_below, hl]⟩

/-- A room that a write leaves alone keeps its schema. -/
theorem RoomSchema.congr {db' : δ} (h : RoomSchema db r)
    (hsame : ∀ q, leafAt db' ("rooms" :: r :: q) = leafAt db ("rooms" :: r :: q)) :
    RoomSchema db' r where
  fields f hf := by rw [hsame]; exact h.fields f hf
  users := by
    rw [hsame, hasData_of_same (p := ["rooms", r, "users"]) fun b => hsame _]
    exact h.users
  entries u hu := by
    rw [hsame, hsame]
    exact h.entries u ((hasData_of_same (p := ["rooms", r, "users", u]) fun b => hsame _).mp hu)

/-- A write inside the room `r` is judged by that room alone. -/
theorem Schema.inside (h : Schema db) {a : Path}
    (hr : RoomSchema (setValue db ("rooms" :: r :: a) v) r) :
    Schema (setValue db ("rooms" :: r :: a) v) := by
  intro r' hr'
  by_cases he : r' = r
  · exact he ▸ hr
  · have hsame := leafAt_other_room db v (Ne.symm he) a
    have hold := (hasData_of_same (p := ["rooms", r']) fun b => hsame b).mp hr'
    exact (h r' hold).congr hsame

/-- The entries of a room are intact when the write kept each one's two leaves
and made no new ones. -/
theorem RoomSchema.entries_of_same {db' : δ} (h : RoomSchema db r)
    (hdata : HasData db' ["rooms", r, "users", u] → HasData db ["rooms", r, "users", u])
    (hname : leafAt db' ["rooms", r, "users", u, "name"] =
      leafAt db ["rooms", r, "users", u, "name"])
    (htime : leafAt db' ["rooms", r, "users", u, "time"] =
      leafAt db ["rooms", r, "users", u, "time"])
    (hu : HasData db' ["rooms", r, "users", u]) :
    (∃ name, leafAt db' ["rooms", r, "users", u, "name"] = some (.str name)) ∧
      ∃ time, leafAt db' ["rooms", r, "users", u, "time"] = some (.num time) := by
  rw [hname, htime]
  exact h.entries u (hdata hu)

/-! ## Writes that fit keep the schema -/

/-- A harmless write is out of every field's way. -/
theorem Harmless.schema (h : Schema db) {a : Path} (hh : Harmless db r f a)
    (hv : ∃ q, v.leafAt q ≠ none) : Schema (setValue db ("rooms" :: r :: f :: a) v) := by
  obtain ⟨hr, hf, hu⟩ := hh
  have hold := h r hr
  have hn : v ≠ Value.null := by
    rintro rfl; obtain ⟨q, hq⟩ := hv; exact hq rfl
  refine h.inside ⟨fun g hg => ?_, ?_, fun u hdata => ?_⟩
  · have hne : f ≠ g := fun he => hf (he ▸ hg)
    rw [leafAt_other_child db v hne]
    exact hold.fields g hg
  · by_cases hfu : f = "users"
    · subst hfu
      obtain ⟨u, g, q, rfl, -⟩ := hu rfl
      refine ⟨hasData_setValue_below hv ["rooms", r, "users"] (u :: g :: q), ?_⟩
      have habove := leafAt_setValue_above db ("rooms" :: r :: "users" :: u :: g :: q) v
        ["rooms", r, "users"] ⟨u :: g :: q, rfl⟩ (by simp)
      rw [habove, if_neg hn]
    · have hsame := leafAt_other_child (r := r) db v hfu a
      rw [hsame, hasData_of_same (p := ["rooms", r, "users"]) hsame]
      exact hold.users
  · by_cases hfu : f = "users"
    · subst hfu
      obtain ⟨u', g, q, rfl, hdata', hname, htime⟩ := hu rfl
      by_cases huu : u' = u
      · subst huu
        exact hold.entries_of_same (fun _ => hdata') (leafAt_other_key db v hname q [])
          (leafAt_other_key db v htime q []) hdata
      · have hsame := leafAt_other_user (r := r) db v huu (g :: q)
        exact hold.entries_of_same (hasData_of_same (p := ["rooms", r, "users", u]) hsame).mp
          (hsame ["name"]) (hsame ["time"]) hdata
    · have hsame := fun b => leafAt_other_child (r := r) db v hfu a (u :: b)
      exact hold.entries_of_same (hasData_of_same (p := ["rooms", r, "users", u]) hsame).mp
        (hsame ["name"]) (hsame ["time"]) hdata

/-- A new entry in the users map of a room. -/
theorem schema_new_entry (h : Schema db) (hr : HasData db ["rooms", r]) (user : User) :
    Schema (setValue db ["rooms", r, "users", u] (userEntry user)) := by
  have hold := h r hr
  have hentry : ∃ q, (userEntry user).leafAt q ≠ none := ⟨["time"], by simp [userEntry]⟩
  refine h.inside ⟨fun g hg => ?_, ⟨hasData_setValue_below hentry ["rooms", r, "users"] [u], ?_⟩,
    fun u' hdata => ?_⟩
  · have hne : "users" ≠ g := by rintro rfl; exact absurd hg (by decide)
    rw [leafAt_other_child db _ hne]
    exact hold.fields g hg
  · exact leafAt_on_the_way db (by simp [userEntry, Value.dict, Value.null, Value.str,
      Value.leaf]) rfl ⟨[u], rfl⟩
  · by_cases huu : u = u'
    · subst huu
      have hbelow := leafAt_setValue_below db ["rooms", r, "users", u] (userEntry user)
      refine ⟨⟨user.name, (hbelow ["name"]).trans ?_⟩, ⟨0, (hbelow ["time"]).trans ?_⟩⟩
      · simp [userEntry]
      · simp [userEntry]
    · have hsame := leafAt_other_user (r := r) db (userEntry user) huu []
      exact hold.entries_of_same (hasData_of_same (p := ["rooms", r, "users", u']) hsame).mp
        (hsame ["name"]) (hsame ["time"]) hdata

/-- A new start time of a room. -/
theorem schema_new_start (h : Schema db) (hr : HasData db ["rooms", r]) (timestamp : ℚ) :
    Schema (setValue db ["rooms", r, "timeStart"] (.num timestamp)) := by
  have hold := h r hr
  have hne : "timeStart" ≠ "users" := by decide
  have husers := leafAt_other_child (r := r) db (.num timestamp) hne []
  refine h.inside ⟨fun g hg => ?_, ?_, fun u hdata => ?_⟩
  · by_cases hg' : "timeStart" = g
    · subst hg'
      exact ⟨timestamp, leafAt_setValue_self _ _ _⟩
    · rw [leafAt_other_child db _ hg']
      exact hold.fields g hg
  · rw [husers, hasData_of_same (p := ["rooms", r, "users"]) husers]
    exact hold.users
  · have hsame := fun b => husers (u :: b)
    exact hold.entries_of_same (hasData_of_same (p := ["rooms", r, "users", u]) hsame).mp
      (hsame ["name"]) (hsame ["time"]) hdata

/-- A new room, in the place of whatever was there. -/
theorem schema_create (h : Schema db) {rid : String} (hk : IsKey rid) (room : Room)
    (user : User) : Schema (createAndJoinRoom db rid room user) := by
  have hleaf := leafAt_create_field db hk room user
  unfold createAndJoinRoom at hleaf ⊢
  rw [roomRef_key hk] at hleaf ⊢
  refine h.inside ⟨fun f hf => ?_, ⟨⟨[user.uid, "time"], .num 0, ?_⟩, ?_⟩, fun u hu => ?_⟩
  · rw [hleaf, if_pos rfl]
    simp only [numericFields, List.mem_cons, List.not_mem_nil, or_false] at hf
    rcases hf with rfl | rfl | rfl <;> simp [roomValue, Room.toDict]
  · rw [List.cons_append, List.cons_append, hleaf, if_pos rfl]
    simp [userEntry]
  · rw [hleaf, if_pos rfl]
    simp [roomValue, Room.toDict]
  · have huid : u = user.uid := by
      by_contra hne
      obtain ⟨q, l, hl⟩ := hu
      rw [List.cons_append, List.cons_append, hleaf, if_pos rfl] at hl
      simp [hne] at hl
    subst huid
    rw [hleaf, hleaf, if_pos rfl]
    simp [userEntry]

/-- A mark replaces a number by a number. -/
theorem schema_mark (h : Schema db) (htree : Exclusive db) (rid uid : String) (timestamp : ℚ) :
    Schema (commitMark db rid uid timestamp) := by
  unfold commitMark
  split
  · rename_i hzero
    have hp : leafAt db (roomUserTimeRef rid uid) ≠ none := by rw [hzero]; simp
    simp only [markBlock, if_true, setLeaf]
    have hsame := leafAt_replace htree hp (.num timestamp)
    have hdata : ∀ p, HasData (setValue db (roomUserTimeRef rid uid)
        (.leaf (.num timestamp))) p → HasData db p := by
      intro p hx
      obtain ⟨q, l, hl⟩ := hx
      rw [hsame] at hl
      split at hl
      · rename_i he
        exact ⟨q, _, he ▸ hzero⟩
      · exact ⟨q, l, hl⟩
    have hnum : ∀ p, (∃ t, leafAt db p = some (.num t)) → ∃ t, leafAt (setValue db
        (roomUserTimeRef rid uid) (.leaf (.num timestamp))) p = some (.num t) := by
      intro p hx
      obtain ⟨t, ht⟩ := hx
      rw [hsame]
      split
      · exact ⟨timestamp, rfl⟩
      · exact ⟨t, ht⟩
    have hother : ∀ p l, (∀ t, l ≠ some (.num t)) → leafAt db p = l → leafAt (setValue db
        (roomUserTimeRef rid uid) (.leaf (.num timestamp))) p = l := by
      intro p l hl hp
      rw [hsame, if_neg, hp]
      intro heq
      subst heq
      exact hl 0 (hp ▸ hzero)
    intro r hr
    have hold := h r (hdata _ hr)
    refine ⟨fun f hf => hnum _ (hold.fields f hf), ⟨?_, hother _ _ (by simp) hold.users.2⟩,
      fun u hu => ?_⟩
    · obtain ⟨q, l, hl⟩ := hold.users.1
      refine ⟨q, ?_⟩
      rw [hsame]
      split
      · exact ⟨_, rfl⟩
      · exact ⟨l, hl⟩
    · obtain ⟨⟨name, hname⟩, htime⟩ := hold.entries u (hdata _ hu)
      exact ⟨⟨name, hother _ _ (by simp) hname⟩, hnum _ htime⟩
  · exact h

/-! ## Writes that keep the schema fit -/

/-- After a write that kept the schema the location was harmless, provided the
write left no leaf where it passed a field. -/
theorem harmless_of_schema {a : Path} (hv : ∃ q, v.leafAt q ≠ none)
    (h : Schema (setValue db ("rooms" :: r :: f :: a) v))
    (hf : f ∈ numericFields →
      leafAt (setValue db ("rooms" :: r :: f :: a) v) ["rooms", r, f] = none)
    (hu : f = "users" → ∃ u g q, a = u :: g :: q ∧ (g = "name" ∨ g = "time" →
      leafAt (setValue db ("rooms" :: r :: f :: a) v) ["rooms", r, "users", u, g] = none)) :
    Harmless db r f a := by
  have hroom := h r (hasData_setValue_below hv ["rooms", r] (f :: a))
  refine ⟨?_, fun hmem => ?_, fun hfu => ?_⟩
  · -- one of the other fields was there before
    obtain ⟨g, hg, hne⟩ : ∃ g ∈ numericFields, f ≠ g := by
      by_cases hl : f = "timeLimit"
      · exact ⟨"betAmount", by decide, by rw [hl]; decide⟩
      · exact ⟨"timeLimit", by decide, hl⟩
    obtain ⟨q, hq⟩ := hroom.fields g hg
    rw [leafAt_other_child db v hne] at hq
    exact ⟨[g], _, hq⟩
  · obtain ⟨q, hq⟩ := hroom.fields f hmem
    rw [hf hmem] at hq
    cases hq
  · obtain ⟨u, g, q, rfl, hg⟩ := hu hfu
    subst hfu
    have hdata : HasData (setValue db (["rooms", r, "users", u] ++ g :: q) v)
        ["rooms", r, "users", u] := hasData_setValue_below hv _ _
    obtain ⟨⟨name, hname⟩, ⟨time, htime⟩⟩ := hroom.entries u hdata
    have hgn : g ≠ "name" := by
      intro heq
      subst heq
      rw [hg (.inl rfl)] at hname
      cases hname
    have hgt : g ≠ "time" := by
      intro heq
      subst heq
      rw [hg (.inr rfl)] at htime
      cases htime
    rw [leafAt_other_key db v hgn q []] at hname
    exact ⟨u, g, q, rfl, ⟨["name"], _, hname⟩, hgn, hgt⟩

theorem fits_of_join (rid : String) (user : User)
    (h : Schema (joinRoomWithRID db rid user)) : Fits db (.joinRoomWithRID rid user) := by
  obtain ⟨r, f, a, hloc⟩ : ∃ r f a, childPath rid ++ ["users", user.uid] = r :: f :: a := by
    rcases childPath rid with _ | ⟨r, _ | ⟨f, a⟩⟩
    · exact ⟨_, _, _, rfl⟩
    · exact ⟨_, _, _, rfl⟩
    · exact ⟨_, _, _, rfl⟩
  have hwrite : joinRoomWithRID db rid user =
      setValue db ("rooms" :: r :: f :: a) (userEntry user) := by
    rw [← hloc]
    simp [joinRoomWithRID, updateChildValues, roomUsersRef, roomRef]
  rw [hwrite] at h
  have hentry : ∃ q, (userEntry user).leafAt q ≠ none := ⟨["time"], by simp [userEntry]⟩
  have hn : userEntry user ≠ Value.null := by
    intro he; rw [he] at hentry; exact hentry.choose_spec rfl
  have hway := fun q => leafAt_on_the_way db (p := "rooms" :: r :: f :: a) (q := q) hn rfl
  by_cases hnew : f = "users" ∧ ∃ u, a = [u]
  · obtain ⟨rfl, u, rfl⟩ := hnew
    -- the room was there before: its other fields are
    obtain ⟨q, hq⟩ := (h r (hasData_setValue_below hentry ["rooms", r] ["users", u])).fields
      "timeLimit" (by decide)
    rw [leafAt_other_child db _ (by decide)] at hq
    exact .inl ⟨r, u, hloc, ⟨["timeLimit"], _, hq⟩⟩
  · refine .inr ⟨r, f, a, hloc, harmless_of_schema hentry h (fun _ => hway _ ⟨a, rfl⟩) ?_⟩
    intro heq
    subst heq
    cases a with
    | nil =>
      -- the entry would be the users map itself, with a name for a user
      have hroom := h r (hasData_setValue_below hentry ["rooms", r] ["users"])
      have hbelow := leafAt_setValue_below db ["rooms", r, "users"] (userEntry user)
      have hdata : HasData (setValue db ["rooms", r, "users"] (userEntry user))
          ["rooms", r, "users", "name"] :=
        ⟨[], _, (hbelow ["name"]).trans (by simp [userEntry]; rfl)⟩
      obtain ⟨⟨name, hname⟩, -⟩ := hroom.entries "name" hdata
      rw [show leafAt _ ["rooms", r, "users", "name", "name"] = _ from hbelow ["name", "name"]]
        at hname
      simp [userEntry] at hname
    | cons u a =>
      cases a with
      | nil => exact absurd ⟨rfl, u, rfl⟩ hnew
      | cons g q => exact ⟨u, g, q, rfl, fun _ => hway _ ⟨q, rfl⟩⟩

theorem fits_of_start (rid : String) (timestamp : ℚ) (h : Schema (startRoom db rid timestamp)) :
    Fits db (.startRoom rid timestamp) := by
  have hnum : ∃ q, (Value.num timestamp).leafAt q ≠ none := ⟨[], by simp⟩
  have hn : Value.num timestamp ≠ Value.null := by simp [Value.num, Value.leaf, Value.null]
  have hwrite : startRoom db rid timestamp =
      setValue db ("rooms" :: (childPath rid ++ ["timeStart"])) (.num timestamp) := by
    simp [startRoom, updateChildValues, roomRef]
  rw [hwrite] at h
  rcases hc : childPath rid with _ | ⟨r, _ | ⟨f, a⟩⟩
  · -- a number among the rooms
    rw [hc, List.nil_append] at h
    have hroom := h "timeStart" (hasData_setValue_below hnum ["rooms", "timeStart"] [])
    obtain ⟨q, hq⟩ := hroom.fields "timeLimit" (by decide)
    rw [show leafAt _ ["rooms", "timeStart", "timeLimit"] = _ from
      leafAt_setValue_below db ["rooms", "timeStart"] (.num timestamp) ["timeLimit"]] at hq
    simp at hq
  · rw [hc, List.cons_append, List.nil_append] at h
    obtain ⟨q, hq⟩ := (h r (hasData_setValue_below hnum ["rooms", r] ["timeStart"])).fields
      "timeLimit" (by decide)
    rw [leafAt_other_child db _ (by decide)] at hq
    exact .inl ⟨r, hc, ⟨["timeLimit"], _, hq⟩⟩
  · rw [hc, List.cons_append, List.cons_append] at h
    have hway : ∀ q, q <+: "rooms" :: r :: f :: a → leafAt (setValue db
        ("rooms" :: r :: f :: (a ++ ["timeStart"])) (.num timestamp)) q = none := by
      intro q hq
      have hlen := hq.length_le
      rw [leafAt_setValue_above db _ _ q (hq.trans ⟨["timeStart"], by simp⟩) ?_, if_neg hn]
      intro heq
      subst heq
      simp only [List.length_cons, List.length_append, List.length_nil] at hlen
      omega
    refine .inr ⟨r, f, a ++ ["timeStart"], by rw [hc]; rfl,
      harmless_of_schema hnum h (fun _ => hway _ ⟨a, rfl⟩) ?_⟩
    intro heq
    subst heq
    cases a with
    | nil =>
      -- a number among the users
      rw [List.nil_append] at h
      have hroom := h r (hasData_setValue_below hnum ["rooms", r] ["users", "timeStart"])
      have hbelow := leafAt_setValue_below db ["rooms", r, "users", "timeStart"] (.num timestamp)
      obtain ⟨⟨name, hname⟩, -⟩ := hroom.entries "timeStart" ⟨[], _, hbelow []⟩
      rw [show leafAt _ ["rooms", r, "users", "timeStart", "name"] = _ from hbelow ["name"]]
        at hname
      simp at hname
    | cons u a =>
      cases a with
      | nil =>
        refine ⟨u, "timeStart", [], rfl, fun hg => ?_⟩
        rcases hg with hg | hg <;> exact absurd hg (by decide)
      | cons g q => exact ⟨u, g, q ++ ["timeStart"], rfl, fun _ => hway _ ⟨q, rfl⟩⟩

/-- **A write keeps the schema exactly where it fits.** -/
theorem schema_apply_iff (h : Schema db) (htree : Exclusive db) {op : RoomOp}
    (hop : ∀ rid room user, op = .createAndJoinRoom rid room user → IsKey rid) :
    Schema (op.apply db) ↔ Fits db op := by
  cases op with
  | createAndJoinRoom rid room user =>
    exact iff_of_true (schema_create h (hop rid room user rfl) room user) trivial
  | mark rid uid timestamp => exact iff_of_true (schema_mark h htree rid uid timestamp) trivial
  | joinRoomWithRID rid user =>
    refine ⟨fits_of_join rid user, fun hfits => ?_⟩
    have hwrite : ∀ w, childPath rid ++ ["users", user.uid] = w →
        joinRoomWithRID db rid user = setValue db ("rooms" :: w) (userEntry user) := by
      intro w heq
      subst heq
      simp [joinRoomWithRID, updateChildValues, roomUsersRef, roomRef]
    rw [apply_join]
    rcases hfits with ⟨r, u, hloc, hr⟩ | ⟨r, f, a, hloc, hh⟩
    · rw [hwrite _ hloc]
      exact schema_new_entry h hr user
    · rw [hwrite _ hloc]
      exact hh.schema h ⟨["time"], by simp [userEntry]⟩
  | startRoom rid timestamp =>
    refine ⟨fits_of_start rid timestamp, fun hfits => ?_⟩
    have hwrite : ∀ w, childPath rid ++ ["timeStart"] = w →
        startRoom db rid timestamp = setValue db ("rooms" :: w) (.num timestamp) := by
      intro w heq
      subst heq
      simp [startRoom, updateChildValues, roomRef]
    rw [apply_start]
    rcases hfits with ⟨r, hloc, hr⟩ | ⟨r, f, a, hloc, hh⟩
    · rw [hwrite [r, "timeStart"] (by rw [hloc]; rfl)]
      exact schema_new_start h hr timestamp
    · rw [hwrite _ hloc]
      exact hh.schema h ⟨[], by simp⟩

/-! ## The database stays a tree -/

theorem exclusive_of_leaves {w : Value} (h : ∀ p ∈ w.leaves.map Prod.fst,
    ∀ q ∈ w.leaves.map Prod.fst, p <+: q → p = q) : w.Exclusive := by
  intro p k q hp
  by_contra hq
  have hmem : ∀ p, w.leafAt p ≠ none → p ∈ w.leaves.map Prod.fst := by
    intro p hp
    by_contra hn
    refine hp (List.lookup_eq_none_iff.mpr fun x hx => ?_)
    have hne : p ≠ x.1 := fun he => hn (he ▸ List.mem_map_of_mem hx)
    simpa using hne
  have he := h p (hmem p hp) _ (hmem _ hq) (List.prefix_append p (k :: q))
  simp at he

theorem exclusive_userEntry (user : User) : (userEntry user).Exclusive := by
  refine exclusive_of_leaves fun p hp q hq hpq => ?_
  simp only [userEntry, Value.dict, Value.str, Value.num, Value.leaf, List.flatMap_cons,
    List.flatMap_nil, List.map_cons, List.map_nil, List.append_nil, List.cons_append,
    List.nil_append, List.mem_cons, List.not_mem_nil, or_false] at hp hq
  rcases hp with rfl | rfl <;> rcases hq with rfl | rfl <;> simp at hpq ⊢

theorem exclusive_roomValue (room : Room) (user : User) : (roomValue room user).Exclusive := by
  refine exclusive_of_leaves fun p hp q hq hpq => ?_
  simp only [roomValue, Room.toDict, Value.setForKey, userEntry, Value.dict, Value.str, Value.num,
    Value.leaf, List.flatMap_cons, List.flatMap_nil, List.map_cons, List.map_nil, List.append_nil,
    List.cons_append, List.nil_append, List.mem_cons, List.not_mem_nil, or_false] at hp hq
  rcases hp with rfl | rfl | rfl | rfl | rfl <;>
    rcases hq with rfl | rfl | rfl | rfl | rfl <;> simp at hpq ⊢

theorem exclusive_apply (htree : Exclusive db) (op : RoomOp) : Exclusive (op.apply db) := by
  cases op with
  | createAndJoinRoom rid room user => exact htree.setValue _ (exclusive_roomValue room user)
  | joinRoomWithRID rid user => exact htree.setValue _ (exclusive_userEntry user)
  | startRoom rid timestamp => exact htree.setValue _ (exclusive_leaf _)
  | mark rid uid timestamp =>
    rw [apply_mark]
    unfold commitMark
    split
    · exact htree.setValue _ (exclusive_leaf _)
    · exact htree

end

end Unplug.Room
