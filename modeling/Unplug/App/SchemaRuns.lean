import Unplug.App.Server
import Unplug.Room.Schema

/-! # The schema over whole runs

Whatever the clients scan and in whatever order the server takes their writes,
the rooms keep their schema exactly as long as each write that the server
applies fits. -/
namespace Unplug.App
open Unplug.Store Unplug.Firebase Unplug.Machine Unplug.Room RealtimeDatabase

section
variable {ι δ : Type*} [DecidableEq ι] [RealtimeDatabase δ]

/-- The write applied in the step, if there is one, goes to a place that fits. -/
def WriteFits (D : Deployment ι) (s : System ι δ) (e : Event ι) : Prop :=
  ∀ op, s.applied D e = some op → Fits s.db op

theorem run_exclusive (D : Deployment ι) (evs : List (Event ι)) :
    Exclusive (D.run evs : System ι δ).db :=
  (run_db D exclusive_empty fun _ _ op _ _ h => exclusive_apply h op).1

theorem applied_create_key (D : Deployment ι) (evs : List (Event ι)) {e : Event ι} {op : RoomOp}
    (h : (D.run evs : System ι δ).applied D e = some op) (rid : String) (room : Firebase.Room)
    (user : User) (hop : op = .createAndJoinRoom rid room user) : IsKey rid := by
  cases e with
  | clock t => cases h
  | client c e =>
    rcases applied_cases D h with ⟨-, w, rest, ho, rfl⟩ | ⟨k, t, value, now, -, -, -, -, -, rfl⟩
    · have hw := (run_creates_keys (δ := δ) D evs c).1 w (by rw [ho]; exact List.mem_cons_self)
      exact hw rid room user hop
    · cases hop

/-- Writes that fit keep the schema. -/
theorem run_schema (D : Deployment ι) {evs : List (Event ι)}
    (h : D.Along (δ := δ) (WriteFits D) evs) : Schema (D.run evs : System ι δ).db := by
  refine (run_db D (P := Schema) ?_ ?_).1
  · intro r hr
    obtain ⟨q, l, hl⟩ := hr
    rw [leafAt_empty] at hl
    cases hl
  · intro pre e op hpre hop hs
    obtain ⟨post, rfl⟩ := hpre
    exact (schema_apply_iff hs (run_exclusive D pre) (applied_create_key D pre hop)).mpr
      ((Along.concat.mp (Along.append.mp h).1).2 op hop)

/-- **The schema holds in every state of a run exactly if every write applied
in it fits**: a join at a user of an existing room, a start at the start time of
one, and either of them elsewhere only inside a part of an existing room that is
no numeric field, not the users map, and in an existing entry neither the name
nor the time. -/
theorem schema_iff_fits (D : Deployment ι) (evs : List (Event ι)) :
    (∀ pre, pre <+: evs → Schema (D.run pre : System ι δ).db) ↔
      D.Along (δ := δ) (WriteFits D) evs := by
  constructor
  · intro h
    refine Deployment.along_iff.mpr fun pre e post he op hop => ?_
    have hpre : Schema (D.run pre : System ι δ).db := h pre ⟨_, he.symm⟩
    have hnext : Schema (D.run (pre ++ [e]) : System ι δ).db := h _ ⟨post, by rw [he]; simp⟩
    rw [run_concat, (db_step_some D hop).1] at hnext
    exact (schema_apply_iff hpre (run_exclusive D pre) (applied_create_key D pre hop)).mp hnext
  · intro h pre hpre
    obtain ⟨post, rfl⟩ := hpre
    exact run_schema D (Along.append.mp h).1

end

/-- A scanned text that names no room makes a room without a time limit. -/
theorem scan_of_no_room :
    ¬ ∀ pre, pre <+: [Event.client true (.scanQRCode "hello"),
        .client true (.deliverWrite true)] →
      Schema (twoPhones.run pre : System Bool LeafTree).db := by
  intro h
  have hdata : HasData (twoPhones.run [Event.client true (.scanQRCode "hello"),
      .client true (.deliverWrite true)] : System Bool LeafTree).db ["rooms", "hello"] :=
    hasValue_iff.mp (by decide +kernel)
  obtain ⟨q, hq⟩ := (h _ List.prefix_rfl "hello" hdata).fields "timeLimit" (by decide)
  rw [show leafAt _ ["rooms", "hello", "timeLimit"] = none by decide +kernel] at hq
  cases hq

end Unplug.App
