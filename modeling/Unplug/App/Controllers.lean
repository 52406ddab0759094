import Unplug.Firebase.Helper
import Mathlib.Data.List.AList

/-! # The view controllers' own code

The lobby's observer block, the stats listener and timer, and the results
screen, each as a function of what it reads. What they share, the navigation,
the observer registry and the global rid, is the client's (App.Client). -/
namespace Unplug.App
open Unplug.Store Unplug.Firebase RealtimeDatabase

/-! ## The lobby -/

/-- The lobby. `observedRID` is the rid `setUpListener` attached the observers to. -/
structure QRCodeGeneratorViewController where
  uidAndNameDict : AList fun _ : String => String
  betAmount : Option ℚ
  qrCode : Option String
  observedRID : Option String

/-- `viewDidLoad`: an empty table and the QR image of the current rid. -/
def QRCodeGeneratorViewController.viewDidLoad (currentRID : Option String)
    (betAmount : Option ℚ) : QRCodeGeneratorViewController :=
  { uidAndNameDict := ∅, betAmount, qrCode := currentRID, observedRID := none }

/-- `setValue:forKey:`, which removes the key for a nil value. -/
def setValueForKey (dict : AList fun _ : String => String) (key : String) :
    Option String → AList fun _ : String => String
  | some value => dict.insert key value
  | none => dict.erase key

section
variable {δ : Type*} [RealtimeDatabase δ]

/-- The `users` branch of the lobby's block: every child's name under its key. -/
def collectNames (db : δ) (ref : Path) (dict : AList fun _ : String => String) :
    AList fun _ : String => String :=
  (children db ref).foldl (fun dict key =>
    if key = "users" then
      (children db (ref ++ ["users"])).foldl (fun dict uid =>
        setValueForKey dict uid (strAt db (ref ++ ["users", uid, "name"]))) dict
    else dict) dict

/-- The `timeStart` branch: a child of that key whose value is not `@0`. -/
def started (db : δ) (ref : Path) : Bool :=
  (children db ref).any fun key =>
    key = "timeStart" ∧ leafAt db (ref ++ ["timeStart"]) ≠ some (.num 0)

/-! ## The running game -/

/-- `![snap.value[@"time"] isEqual:@0]`; an entry without a time answers YES. -/
def marked (db : δ) (usersRef : Path) (uid : String) : Bool :=
  leafAt db (usersRef ++ [uid, "time"]) ≠ some (.num 0)

/-- `snap.value[@"name"]`; nil has length zero, as the empty name does. -/
def nameOf (db : δ) (usersRef : Path) (uid : String) : String :=
  (strAt db (usersRef ++ [uid, "name"])).getD ""

/-- The listener's loop over the users: the last marked child's name stays. -/
def loserName (db : δ) (usersRef : Path) : String :=
  (children db usersRef).foldl (fun loserName uid =>
    if marked db usersRef uid then nameOf db usersRef uid else loserName) ""

/-- The last user of the snapshot that the loop sees as marked. -/
def lastMarked (db : δ) (usersRef : Path) : Option String :=
  ((children db usersRef).filter (marked db usersRef)).getLast?

end

inductive Timer
  | unscheduled
  | scheduled
  | invalidated
  deriving DecidableEq

/-- The running game. `observedRID` is the rid `setUpListener` attached the listener to. -/
structure RoomStatsViewController where
  loserName : Option String
  betAmount : Option ℚ
  startTime : Option ℚ
  timeLimit : Option ℚ
  markBackgrounded : Bool
  timer : Timer
  observedRID : Option String
  deriving DecidableEq

/-- A fresh controller, with the bet that `prepareForSegue:` set. -/
def RoomStatsViewController.new (betAmount : Option ℚ) : RoomStatsViewController :=
  { loserName := none, betAmount, startTime := none, timeLimit := none, markBackgrounded := false,
    timer := .unscheduled, observedRID := none }

/-- `timeLeft` in `updateTimer`; `doubleValue` of nil is zero. -/
def RoomStatsViewController.timeLeft (vc : RoomStatsViewController) (now : ℚ) : ℚ :=
  vc.startTime.getD 0 + vc.timeLimit.getD 0 - now

/-- The completion of `setUpLabel` has run: it schedules the timer last. -/
def RoomStatsViewController.labelled (vc : RoomStatsViewController) : Prop :=
  vc.timer ≠ .unscheduled

instance (vc : RoomStatsViewController) : Decidable vc.labelled :=
  inferInstanceAs (Decidable (_ ≠ _))

/-! ## The results -/

structure ResultsViewController where
  loserName : Option String
  betAmount : Option ℚ
  deriving DecidableEq

/-- The text of `viewDidLoad`; `describe` prints a number the way `%@` does. -/
def ResultsViewController.resultLabel (describe : Option ℚ → String)
    (vc : ResultsViewController) : String :=
  match vc.loserName with
  | some loserName => loserName ++ " lost! They owe you $" ++ describe vc.betAmount ++ "."
  | none => "Congrats, no one used their phone!"

/-- The screen congratulates exactly where the controller holds no loser. -/
theorem ResultsViewController.resultLabel_congrats (describe : Option ℚ → String)
    (vc : ResultsViewController) :
    vc.resultLabel describe = "Congrats, no one used their phone!" ↔ vc.loserName = none := by
  cases hn : vc.loserName with
  | none => simp [resultLabel, hn]
  | some loserName =>
    simp only [resultLabel, hn, reduceCtorEq, iff_false]
    intro h
    -- the two texts end differently
    have hlast := congrArg (fun s : String => s.toList.getLast?) h
    simp only [String.toList_append, show ".".toList = ['.'] from rfl,
      List.getLast?_concat] at hlast
    exact absurd hlast (by decide)

/-! ## The listener's loop -/

section
variable {δ : Type*} [RealtimeDatabase δ]

theorem foldl_last {α β : Type*} (l : List α) (p : α → Bool) (f : α → β) (init : β) :
    l.foldl (fun acc a => if p a then f a else acc) init =
      ((l.filter p).getLast?.map f).getD init := by
  induction l using List.reverseRecOn with
  | nil => rfl
  | append_singleton l a ih =>
    rw [List.foldl_append, List.filter_append, List.foldl_cons, List.foldl_nil, ih]
    cases hp : p a with
    | true => simp [hp]
    | false => simp [hp]

/-- The loop's result is the name of the last marked user, or empty. -/
theorem loserName_eq (db : δ) (usersRef : Path) :
    loserName db usersRef = ((lastMarked db usersRef).map (nameOf db usersRef)).getD "" :=
  foldl_last _ _ _ _

theorem lastMarked_mem {db : δ} {usersRef : Path} {uid : String}
    (h : lastMarked db usersRef = some uid) :
    uid ∈ children db usersRef ∧ marked db usersRef uid = true :=
  List.mem_filter.mp (List.mem_of_getLast? h)

theorem started_iff {db : δ} {ref : Path} :
    started db ref = true ↔
      HasData db (ref ++ ["timeStart"]) ∧ leafAt db (ref ++ ["timeStart"]) ≠ some (.num 0) := by
  rw [started, List.any_eq_true]
  constructor
  · intro hx
    obtain ⟨key, hk, h⟩ := hx
    obtain ⟨rfl, hl⟩ := of_decide_eq_true h
    exact ⟨mem_children_iff.mp hk, hl⟩
  · intro hx
    obtain ⟨hd, hl⟩ := hx
    exact ⟨"timeStart", mem_children_iff.mpr hd, decide_eq_true ⟨rfl, hl⟩⟩

end

end Unplug.App
