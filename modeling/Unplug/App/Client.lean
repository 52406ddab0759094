import Unplug.App.Controllers

/-! # One client: an app process on one phone

The state of a process and what each event does to it. Firebase's callbacks,
the timer, the delayed checks and the user's taps all run on the main queue, so
a run is a sequence of events. A tap needs its screen in front; a segue from a
controller that is not in front, because it presents another one already or was
dismissed, shows nothing new. The appearance callbacks of a presentation come
later than the presentation itself, in order. -/
namespace Unplug.App
open Unplug.Store Unplug.Firebase RealtimeDatabase

/-! ## State -/

/-- A presented controller; the menu is below them all. A lobby is known by its
place in `Client.lobbies`, a room setup by a number of its own. -/
inductive Screen
  | setup (id : ℕ)
  | lobby (id : ℕ)
  | stats
  | results
  deriving DecidableEq

/-- Whose block an observer runs. -/
inductive Block
  | lobby (id : ℕ)
  | stats
  | setUpLabel
  deriving DecidableEq

/-- A registered value observer. -/
structure Observer where
  ref : Path
  block : Block
  single : Bool
  deriving DecidableEq

/-- The appearance callbacks a presentation or a dismissal still owes. -/
structure Transition where
  disappears : Option Screen
  appears : Option Screen
  deriving DecidableEq

/-- A write with the controller its completion performs the segue from. -/
structure Write where
  op : RoomOp
  sender : Option Screen
  deriving DecidableEq

/-- A check that `appBackgrounded` scheduled, with the captured reference. -/
structure Check where
  rid : String
  due : ℚ
  task : ℕ
  deriving DecidableEq

/-- A mark transaction in flight. `run` is the value its block last ran on and
the time it read then. -/
structure Transaction where
  rid : String
  task : ℕ
  run : Option (Option Leaf × ℚ)
  committed : Bool
  deriving DecidableEq

/-- What the process asked of the platform. -/
inductive Call
  | performRoomStats (lobby : ℕ)
  | performToResults (loserName : Option String) (betAmount : Option ℚ)
  | setStatLabel (betAmount : Option ℚ)
  | postYouLost (betAmount : Option ℚ)
  | runTransaction (task : ℕ)
  | beginBackgroundTask (task : ℕ)
  | endBackgroundTask (task : ℕ)
  deriving DecidableEq

structure Client where
  currentRID : Option String
  /-- What `numberFromString:` makes of the bet field. -/
  betAmountField : Option ℚ
  screens : List Screen
  nextSetup : ℕ
  transitions : List Transition
  lobbies : List QRCodeGeneratorViewController
  stats : Option RoomStatsViewController
  results : Option ResultsViewController
  /-- The app delegate's delegate is the stats controller. -/
  delegate : Bool
  observers : List Observer
  /-- Writes the server has not seen, and answers the client has not seen: the
  server state an accepted write made, or a rejection. -/
  outbox : List Write
  acks : List (Write × Option ℕ)
  checks : List Check
  transactions : List Transaction
  nextTask : ℕ
  calls : List Call
  /-- The newest server state the client has been told of. -/
  seen : ℕ

/-- A launched process, at the menu. What an earlier one had sent and the server had not
taken is lost with it. -/
def Client.launch : Client where
  currentRID := none
  betAmountField := none
  screens := []
  nextSetup := 0
  transitions := []
  lobbies := []
  stats := none
  results := none
  delegate := false
  observers := []
  outbox := []
  acks := []
  checks := []
  transactions := []
  nextTask := 0
  calls := []
  seen := 0

namespace Client

/-! ## Presenting -/

/-- Present `new` from `sender` (the menu for `none`), if `sender` is in front. -/
def present (c : Client) (sender : Option Screen) (new : Screen)
    (viewDidLoad : Client → Client) : Client :=
  if c.screens.head? = sender then
    viewDidLoad { c with
      screens := new :: c.screens
      transitions := c.transitions ++ [⟨sender, some new⟩] }
  else c

/-- The menu's segue to a new room setup, with an empty bet field. -/
def showSetup (c : Client) : Client :=
  if c.screens = [] then
    { c.present none (.setup c.nextSetup) id with
      nextSetup := c.nextSetup + 1, betAmountField := none }
  else c

def backTUI (c : Client) : Client :=
  match c.screens with
  | .setup _ :: rest => { c with screens := rest }
  | _ => c

/-- The segues `createLobby` and `joinLobby`. -/
def presentLobby (c : Client) (sender : Option Screen) (betAmount : Option ℚ) : Client :=
  c.present sender (.lobby c.lobbies.length) fun c =>
    { c with lobbies := c.lobbies ++ [.viewDidLoad c.currentRID betAmount] }

/-- `dismiss:` of the lobby. -/
def dismiss (c : Client) : Client :=
  match c.screens with
  | .lobby id :: rest => { c with
      screens := rest
      transitions := c.transitions ++ [⟨some (.lobby id), rest.head?⟩] }
  | _ => c

/-- `setUpLabel`: one read of the current room, by a single-event observer. -/
def setUpLabel (c : Client) : Client :=
  match c.currentRID with
  | some rid => { c with observers := c.observers ++ [⟨roomRef rid, .setUpLabel, true⟩] }
  | none => c

/-- The segue `roomStats` of the lobby `id`, with the stats controller's `viewDidLoad`. -/
def performRoomStats (c : Client) (id : ℕ) : Client :=
  let betAmount := (c.lobbies[id]?).bind (·.betAmount)
  present { c with calls := c.calls ++ [.performRoomStats id] } (some (.lobby id)) .stats fun c =>
    setUpLabel { c with stats := some (.new betAmount), delegate := true }

/-- The segue `toResults`, with the results controller's `viewDidLoad`. -/
def performToResults (c : Client) (vc : RoomStatsViewController) : Client :=
  present { c with
      stats := some vc
      calls := c.calls ++ [.performToResults vc.loserName vc.betAmount] }
    (some .stats) .results fun c =>
    { c with results := some ⟨vc.loserName, vc.betAmount⟩, delegate := false }

/-! ## Observers -/

/-- `setUpListener` of the lobby `id`: the same block twice, once single-event. -/
def lobbySetUpListener (c : Client) (id : ℕ) : Client :=
  match c.currentRID with
  | some rid => { c with
      observers := c.observers ++
        [⟨roomRef rid, .lobby id, true⟩, ⟨roomRef rid, .lobby id, false⟩]
      lobbies := c.lobbies.modify id fun vc => { vc with observedRID := some rid } }
  | none => c

def statsSetUpListener (c : Client) : Client :=
  match c.currentRID with
  | some rid => { c with
      observers := c.observers ++ [⟨roomUsersRef rid, .stats, false⟩]
      stats := c.stats.map fun vc => { vc with observedRID := some rid } }
  | none => c

/-- `tearDownListener`, the same code in the lobby and in the stats controller:
`removeAllObservers` at the users of the current room. -/
def tearDownListener (c : Client) : Client :=
  match c.currentRID with
  | some rid => { c with observers := c.observers.filter fun o => o.ref ≠ roomUsersRef rid }
  | none => c

def viewWillDisappear (c : Client) : Option Screen → Client
  | some (.lobby _) => c.tearDownListener
  | some .stats => c.tearDownListener
  | _ => c

def viewWillAppear (c : Client) : Option Screen → Client
  | some (.lobby id) => c.lobbySetUpListener id
  | some .stats => c.statsSetUpListener
  | _ => c

/-- The next appearance callbacks: the presenter's first, then the new screen's. -/
def appear (c : Client) : Client :=
  match c.transitions with
  | t :: rest =>
    viewWillAppear (viewWillDisappear { c with transitions := rest } t.disappears) t.appears
  | [] => c

section
variable {δ : Type*} [RealtimeDatabase δ]

/-- The lobby's block on a room snapshot. -/
def observeEventBlock (c : Client) (id : ℕ) (db : δ) (ref : Path) : Client :=
  let c := { c with lobbies := c.lobbies.modify id fun vc =>
    { vc with uidAndNameDict := collectNames db ref vc.uidAndNameDict } }
  if started db ref then c.performRoomStats id else c

/-- The stats controller's listener on a users snapshot. -/
def listener (c : Client) (db : δ) (usersRef : Path) : Client :=
  match c.stats with
  | some vc =>
    if loserName db usersRef ≠ "" then
      c.performToResults { vc with loserName := some (loserName db usersRef) }
    else c
  | none => c

/-- The completion of `setUpLabel` on a room snapshot. -/
def setUpLabelCompletion (c : Client) (db : δ) (ref : Path) : Client :=
  match c.stats, getInfoForRID db ref with
  | some vc, some (betAmount, startTime, timeLimit) => { c with
      stats := some { vc with betAmount, startTime, timeLimit, timer := .scheduled }
      calls := c.calls ++ [.setStatLabel betAmount] }
  | _, _ => c

/-- Deliver a snapshot to the registered observer number `k`; a single-event one
is gone then. -/
def deliver (c : Client) (k : ℕ) (o : Observer) (db : δ) : Client :=
  let c := if o.single then { c with observers := c.observers.eraseIdx k } else c
  match o.block with
  | .lobby id => c.observeEventBlock id db o.ref
  | .stats => c.listener db o.ref
  | .setUpLabel => c.setUpLabelCompletion db o.ref

end

/-! ## Writes -/

/-- The user edits the bet field of the room setup in front. -/
def editBetAmount (c : Client) (value : Option ℚ) : Client :=
  match c.screens with
  | .setup _ :: _ => { c with betAmountField := value }
  | _ => c

/-- `startRoomTUI:` of the room setup; a field that holds no number returns early. -/
def createTUI (c : Client) (autoId : String) (timeLimit : ℚ) (user : User) : Option Client :=
  match c.screens.head?, c.betAmountField with
  | some (.setup id), some betAmount => some { c with
      outbox := c.outbox ++
        [⟨.createAndJoinRoom autoId ⟨timeLimit, betAmount, 0⟩ user, some (.setup id)⟩] }
  | _, _ => none

/-- The menu's scanner has recognized `text` and is dismissed. -/
def scanQRCode (c : Client) (text : String) (user : User) : Client :=
  if c.screens = [] then
    { c with outbox := c.outbox ++ [⟨.joinRoomWithRID text user, none⟩] }
  else c

/-- The room the Start button of the lobby in front would start. -/
def startTarget (c : Client) : Option String :=
  match c.screens.head? with
  | some (.lobby _) => c.currentRID
  | _ => none

/-- `startRoomTUI:` of the lobby. -/
def startRoomTUI (c : Client) (now : ℚ) : Client :=
  match c.startTarget with
  | some rid => { c with outbox := c.outbox ++ [⟨.startRoom rid now, none⟩] }
  | none => c

/-- A completion block runs: the rid becomes the current one, then the segue. -/
def ack (c : Client) : Client :=
  match c.acks with
  | (w, answer) :: rest =>
    let c := { c with acks := rest, seen := max c.seen (answer.getD 0) }
    match w.op, answer with
    | .createAndJoinRoom rid _ _, some _ =>
      presentLobby { c with currentRID := some rid } w.sender c.betAmountField
    | .joinRoomWithRID rid _, some _ => presentLobby { c with currentRID := some rid } w.sender none
    | _, _ => c
  | [] => c

/-! ## Leaving the app -/

/-- `appBackgrounded`: the check fires half a second later. -/
def appBackgrounded (c : Client) (now : ℚ) : Client :=
  match c.currentRID with
  | some rid => { c with
      stats := c.stats.map fun vc => { vc with markBackgrounded := true }
      checks := c.checks ++ [⟨rid, now + 1 / 2, c.nextTask⟩]
      nextTask := c.nextTask + 1
      calls := c.calls ++ [.beginBackgroundTask c.nextTask] }
  | none => c

def deviceLocked (c : Client) : Client :=
  { c with stats := c.stats.map fun vc => { vc with markBackgrounded := false } }

/-- `applicationDidEnterBackground:` tells the delegate, if there is one. -/
def didEnterBackground (c : Client) (now : ℚ) : Client :=
  if c.delegate then c.appBackgrounded now else c

/-- `applicationWillEnterForeground:` logs and does nothing. -/
def willEnterForeground (c : Client) : Client := c

/-- The `lockcomplete` notification goes to the delegate the same way. -/
def lockcomplete (c : Client) : Client := if c.delegate then c.deviceLocked else c

def markFlag (c : Client) : Bool := (c.stats.map (·.markBackgrounded)).getD false

/-- A scheduled check fires, no earlier than it is due. -/
def check (c : Client) (k : ℕ) (now : ℚ) : Client :=
  match c.checks[k]? with
  | some ch =>
    if now < ch.due then c
    else
      let c := { c with checks := c.checks.eraseIdx k }
      if c.markFlag then { c with
          transactions := c.transactions ++ [⟨ch.rid, ch.task, none, false⟩]
          calls := c.calls ++ [.runTransaction ch.task] }
      else { c with calls := c.calls ++ [.endBackgroundTask ch.task] }
  | none => c

/-- The transaction's block runs on a locally known value. -/
def runBlock (c : Client) (k : ℕ) (currentData : Option Leaf) (now : ℚ) : Client :=
  { c with transactions := c.transactions.modify k fun t =>
      if t.committed then t else { t with run := some (currentData, now) } }

/-- The completion block: the notification is posted however it ended. -/
def transactionCompletion (c : Client) (k : ℕ) (error : Bool) : Client :=
  match c.transactions[k]? with
  | some t =>
    if t.committed || error then { c with
        transactions := c.transactions.eraseIdx k
        calls := c.calls ++ [.postYouLost (c.stats.bind (·.betAmount)), .endBackgroundTask t.task] }
    else c
  | none => c

/-- A tick of the scheduled timer. -/
def updateTimer (c : Client) (now : ℚ) : Client :=
  match c.stats with
  | some vc =>
    if vc.timer = .scheduled ∧ vc.timeLeft now < 1 then
      c.performToResults { vc with timer := .invalidated }
    else c
  | none => c

end Client

end Unplug.App
