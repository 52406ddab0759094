import Unplug.App.Client
import Unplug.Machine.Run
import Unplug.Store.LeafTree

/-! # All the clients and the server

Any number of clients share one database. A client's write travels to the
server, which applies or rejects it, and its answer travels back, each in the
order of the writes; a mark transaction commits when the value its block ran on
is the server's. Snapshots show a client some server state, with or without the
client's own pending changes laid over it. Who acts next is the run's choice. A
relaunch takes with it what its client had sent and the server had not taken. -/
namespace Unplug.App
open Unplug.Store Unplug.Firebase Unplug.Machine RealtimeDatabase

/-! ## One client's step -/

inductive ClientEvent
  | showSetup
  | backTUI
  | editBetAmount (value : Option ℚ)
  | createTUI (timeLimit : ℚ)
  | scanQRCode (text : String)
  | dismiss
  | startRoomTUI
  /-- The server gets the client's oldest write. -/
  | deliverWrite (accepted : Bool)
  | ack
  | appear
  /-- Observer `k` gets server state `i`, under the client's own pending changes or bare. -/
  | snapshot (k i : ℕ) (overlaid : Bool)
  | updateTimer
  | didEnterBackground
  | willEnterForeground
  | lockcomplete
  | check (k : ℕ)
  | runBlock (k : ℕ) (currentData : Option Leaf)
  /-- The server compares the value transaction `k` ran on with its own. -/
  | compare (k : ℕ)
  | completion (k : ℕ) (error : Bool)
  | relaunch
  deriving DecidableEq

/-- What a step of a client can see of the rest. -/
structure Env (δ : Type*) where
  user : User
  now : ℚ
  autoId : String
  db : δ
  history : List δ

/-- A client's step: the client after it, the write the server applied in it,
and whether it used up the fresh id. -/
structure Outcome where
  client : Client
  op : Option RoomOp := none
  fresh : Bool := false

/-- The value that a transaction shows its own client before the server has it. -/
def Transaction.optimistic {δ : Type*} [RealtimeDatabase δ] (uid : String) (db : δ)
    (t : Transaction) : δ :=
  match t.run with
  | some (value, now) => setLeaf db (roomUserTimeRef t.rid uid) (markBlock value now)
  | none => db

namespace Client
variable {δ : Type*} [RealtimeDatabase δ]

/-- The writes that still show in the client's own view. -/
def pending (c : Client) : List RoomOp := (c.acks.map fun a => a.1.op) ++ c.outbox.map (·.op)

/-- A server state under the client's pending writes and optimistic marks. -/
def overlay (c : Client) (user : User) (db : δ) : δ :=
  c.transactions.foldl (Transaction.optimistic user.uid) (c.pending.foldl RoomOp.apply db)

/-- The database a snapshot is cut from. -/
def view (env : Env δ) (c : Client) (i : ℕ) (overlaid : Bool) : Option δ :=
  (env.history[i]?).map fun db => if overlaid then c.overlay env.user db else db

/-- The server takes the oldest write. -/
def deliverWrite (env : Env δ) (c : Client) (accepted : Bool) : Outcome :=
  match c.outbox with
  | w :: rest =>
    if accepted then
      { client := { c with outbox := rest, acks := c.acks ++ [(w, some env.history.length)] }
        op := some w.op }
    else { client := { c with outbox := rest, acks := c.acks ++ [(w, none)] } }
  | [] => { client := c }

/-- The server commits the block's result, or has the block run again. -/
def compare (env : Env δ) (c : Client) (k : ℕ) : Outcome :=
  match c.transactions[k]? with
  | some ⟨rid, task, some (value, now), false⟩ =>
    if leafAt env.db (roomUserTimeRef rid env.user.uid) = value then
      { client := { c with
          transactions := c.transactions.set k ⟨rid, task, some (value, now), true⟩ }
        op := some (.mark rid env.user.uid now) }
    else { client := { c with transactions := c.transactions.set k ⟨rid, task, none, false⟩ } }
  | _ => { client := c }

def snapshot (env : Env δ) (c : Client) (k i : ℕ) (overlaid : Bool) : Client :=
  match c.observers[k]?, c.view env i overlaid with
  | some o, some db => { deliver c k o db with seen := max c.seen i }
  | _, _ => c

def step (env : Env δ) (c : Client) : ClientEvent → Outcome
  | .showSetup => { client := c.showSetup }
  | .backTUI => { client := c.backTUI }
  | .editBetAmount value => { client := c.editBetAmount value }
  | .createTUI timeLimit => match c.createTUI env.autoId timeLimit env.user with
    | some c' => { client := c', fresh := true }
    | none => { client := c }
  | .scanQRCode text => { client := c.scanQRCode text env.user }
  | .dismiss => { client := c.dismiss }
  | .startRoomTUI => { client := c.startRoomTUI env.now }
  | .deliverWrite accepted => c.deliverWrite env accepted
  | .ack => { client := c.ack }
  | .appear => { client := c.appear }
  | .snapshot k i overlaid => { client := c.snapshot env k i overlaid }
  | .updateTimer => { client := c.updateTimer env.now }
  | .didEnterBackground => { client := c.didEnterBackground env.now }
  | .willEnterForeground => { client := c.willEnterForeground }
  | .lockcomplete => { client := c.lockcomplete }
  | .check k => { client := c.check k env.now }
  | .runBlock k currentData => { client := c.runBlock k currentData env.now }
  | .compare k => c.compare env k
  | .completion k error => { client := c.transactionCompletion k error }
  | .relaunch => { client := .launch }

end Client

/-! ## The system -/

/-- Who plays: each client is logged in as its own uid, `childByAutoId` gives
every new room another key, and clocks are past 1970. -/
structure Deployment (ι : Type*) where
  user : ι → User
  autoId : ℕ → String
  launchTime : ℚ
  uid_injective : ∀ {c d}, (user c).uid = (user d).uid → c = d
  autoId_injective : ∀ {m n}, autoId m = autoId n → m = n
  autoId_key : ∀ n, IsKey (autoId n)
  launchTime_pos : 0 < launchTime

structure System (ι δ : Type*) where
  db : δ
  /-- Every state the server has been in, the current one last. -/
  history : List δ
  now : ℚ
  nextAutoId : ℕ
  clients : ι → Client

inductive Event (ι : Type*)
  | clock (t : ℚ)
  | client (c : ι) (e : ClientEvent)
  deriving DecidableEq

section
variable {ι δ : Type*} [DecidableEq ι] [RealtimeDatabase δ]

/-- Every process launched, no room on the server. -/
def System.init (D : Deployment ι) : System ι δ where
  db := RealtimeDatabase.empty
  history := [RealtimeDatabase.empty]
  now := D.launchTime
  nextAutoId := 0
  clients _ := .launch

def System.env (D : Deployment ι) (s : System ι δ) (c : ι) : Env δ where
  user := D.user c
  now := s.now
  autoId := D.autoId s.nextAutoId
  db := s.db
  history := s.history

/-- The server applies a write, if there is one. -/
def System.commit (s : System ι δ) : Option RoomOp → System ι δ
  | some op => { s with db := op.apply s.db, history := s.history ++ [op.apply s.db] }
  | none => s

def System.step (D : Deployment ι) (s : System ι δ) : Event ι → System ι δ
  | .clock t => { s with now := max s.now t }
  | .client c e =>
    let o := (s.clients c).step (s.env D c) e
    { s.commit o.op with
      nextAutoId := if o.fresh then s.nextAutoId + 1 else s.nextAutoId
      clients := Function.update s.clients c o.client }

/-- The system after a run of events. -/
def Deployment.run (D : Deployment ι) (evs : List (Event ι)) : System ι δ :=
  exec (System.step D) (System.init D) evs

/-- The run's every step meets `P`. -/
def Deployment.Along (D : Deployment ι) (P : System ι δ → Event ι → Prop)
    (evs : List (Event ι)) : Prop :=
  Machine.Along (System.step D) P (System.init D) evs

instance (D : Deployment ι) {P : System ι δ → Event ι → Prop} [∀ s e, Decidable (P s e)]
    (evs : List (Event ι)) : Decidable (D.Along P evs) :=
  inferInstanceAs (Decidable (Machine.Along _ _ _ _))

theorem Deployment.along_iff {D : Deployment ι} {P : System ι δ → Event ι → Prop}
    {evs : List (Event ι)} :
    D.Along P evs ↔ ∀ pre e post, evs = pre ++ e :: post → P (D.run pre) e :=
  along_iff_split

/-! ## What a step changes -/

@[simp] theorem step_client_self (D : Deployment ι) (s : System ι δ) (c : ι) (e : ClientEvent) :
    (s.step D (.client c e)).clients c = ((s.clients c).step (s.env D c) e).client := by
  simp [System.step]

@[simp] theorem step_client_other (D : Deployment ι) (s : System ι δ) {c d : ι} (h : d ≠ c)
    (e : ClientEvent) : (s.step D (.client c e)).clients d = s.clients d := by
  simp [System.step, h]

/-- A client after a step is the one before it, unless the step is its own. -/
theorem clients_step (D : Deployment ι) (s : System ι δ) (e : Event ι) (x : ι) :
    ((∀ e', e ≠ .client x e') ∧ (s.step D e).clients x = s.clients x) ∨
      ∃ e', e = .client x e' ∧
        (s.step D e).clients x = ((s.clients x).step (s.env D x) e').client := by
  cases e with
  | clock t => exact .inl ⟨fun e' h => (by cases h), rfl⟩
  | client y e =>
    by_cases hx : x = y
    · subst hx
      exact .inr ⟨e, rfl, step_client_self D s x e⟩
    · refine .inl ⟨?_, step_client_other D s hx e⟩
      intro e' h
      cases h
      exact hx rfl

/-- Only the clock moves the time. -/
theorem step_client_now (D : Deployment ι) (s : System ι δ) (c : ι) (e : ClientEvent) :
    (s.step D (.client c e)).now = s.now := by
  have hcommit : ∀ op, (s.commit op).now = s.now := by
    intro op
    cases op with
    | none => rfl
    | some op => rfl
  exact hcommit _

theorem run_append (D : Deployment ι) (pre post : List (Event ι)) :
    (D.run (pre ++ post) : System ι δ) = exec (System.step D) (D.run pre) post := exec_append _ _ _

theorem run_concat (D : Deployment ι) (evs : List (Event ι)) (e : Event ι) :
    (D.run (evs ++ [e]) : System ι δ) = (D.run evs).step D e := exec_concat _ _ _

end

/-! ## Two phones -/

/-- Ann and Bob on a server that names its rooms `-`, `-a`, `-aa` and so on. -/
def twoPhones : Deployment Bool where
  user
    | false => ⟨"Ann", 0, "uidA"⟩
    | true => ⟨"Bob", 0, "uidB"⟩
  autoId n := String.ofList ('-' :: List.replicate n 'a')
  launchTime := 1000
  uid_injective := by decide
  autoId_injective h := by
    have hl := congrArg (fun s => s.toList.length) h
    simpa using hl
  autoId_key n := by
    refine ⟨fun h => ?_, by simp⟩
    have hl := congrArg String.toList h
    simp at hl
  launchTime_pos := by decide +kernel

/-- Ann creates the room `-` with a limit of 60, Bob scans its code, both lobbies appear. -/
def bothInLobby : List (Event Bool) :=
  [.client false .showSetup, .client false (.editBetAmount (some 5)),
    .client false (.createTUI 60), .client false (.deliverWrite true), .client false .ack,
    .client false .appear, .client false .appear, .client true (.scanQRCode "-"),
    .client true (.deliverWrite true), .client true .ack, .client true .appear]

end Unplug.App
