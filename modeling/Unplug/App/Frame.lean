import Unplug.App.System

/-! # What the screens leave alone

Screens, observers and the timer never touch what a client owes the server and
the server owes it: the global rid, the writes on their way and their answers,
the scheduled checks and the transactions. `Link` is that part of a client. -/
namespace Unplug.App
open Unplug.Store Unplug.Firebase Unplug.Machine RealtimeDatabase

/-- The part of a client that faces the server. -/
structure Link where
  currentRID : Option String
  outbox : List Write
  acks : List (Write × Option ℕ)
  checks : List Check
  transactions : List Transaction
  seen : ℕ

namespace Client

def link (c : Client) : Link :=
  ⟨c.currentRID, c.outbox, c.acks, c.checks, c.transactions, c.seen⟩

variable {c : Client}

/-! ## Observers that go -/

/-- What disappears takes observers away and leaves the rest. -/
theorem viewWillDisappear_eq (s : Option Screen) :
    ∃ obs, (∀ o ∈ obs, o ∈ c.observers) ∧ c.viewWillDisappear s = { c with observers := obs } := by
  have htear : ∃ obs, (∀ o ∈ obs, o ∈ c.observers) ∧
      c.tearDownListener = { c with observers := obs } := by
    unfold tearDownListener
    split
    · exact ⟨_, fun _ h => List.mem_of_mem_filter h, rfl⟩
    · exact ⟨c.observers, fun _ h => h, rfl⟩
  unfold viewWillDisappear
  split
  · exact htear
  · exact htear
  · exact ⟨c.observers, fun _ h => h, rfl⟩

/-- The next appearance callback, on what the one before it leaves. -/
theorem appear_cases (c : Client) :
    (c.transitions = [] ∧ c.appear = c) ∨
      ∃ t rest obs, c.transitions = t :: rest ∧ (∀ o ∈ obs, o ∈ c.observers) ∧
        c.appear =
          ({ c with transitions := rest, observers := obs } : Client).viewWillAppear t.appears := by
  cases ht : c.transitions with
  | nil => exact .inl ⟨rfl, by simp [appear, ht]⟩
  | cons t rest =>
    obtain ⟨obs, hobs, heq⟩ :=
      ({ c with transitions := rest } : Client).viewWillDisappear_eq t.disappears
    exact .inr ⟨t, rest, obs, rfl, hobs, by simp only [appear, ht, heq]⟩

/-- A delivery runs the block, after a single-event observer is taken away. -/
theorem deliver_eq {δ : Type*} [RealtimeDatabase δ] (c : Client) (k : ℕ) (o : Observer) (db : δ) :
    ∃ obs, (∀ o' ∈ obs, o' ∈ c.observers) ∧ c.deliver k o db =
      match o.block with
      | .lobby id => ({ c with observers := obs } : Client).observeEventBlock id db o.ref
      | .stats => ({ c with observers := obs } : Client).listener db o.ref
      | .setUpLabel => ({ c with observers := obs } : Client).setUpLabelCompletion db o.ref := by
  unfold deliver
  cases o.single with
  | true => exact ⟨c.observers.eraseIdx k, fun _ h => List.mem_of_mem_eraseIdx h, rfl⟩
  | false => exact ⟨c.observers, fun _ h => h, rfl⟩

/-! ## What the screens leave alone -/

section
variable {α : Type*} (f : Client → α)

/-- A presentation changes the screens, and what the new view does when it loads. -/
theorem present_keeps
    (hf : ∀ (c : Client) screens transitions, f { c with screens, transitions } = f c)
    (sender : Option Screen) (new : Screen) {viewDidLoad : Client → Client}
    (h : ∀ c, f (viewDidLoad c) = f c) : f (c.present sender new viewDidLoad) = f c := by
  unfold present
  split
  · exact (h _).trans (hf c _ _)
  · rfl

theorem setUpLabel_keeps (hf : ∀ (c : Client) observers, f { c with observers } = f c) :
    f c.setUpLabel = f c := by
  unfold setUpLabel
  split
  · exact hf c _
  · rfl

/-- What appears attaches observers, and its controller remembers where. -/
theorem viewWillAppear_keeps
    (hf : ∀ (c : Client) lobbies stats observers, f { c with lobbies, stats, observers } = f c)
    (s : Option Screen) : f (c.viewWillAppear s) = f c := by
  unfold viewWillAppear lobbySetUpListener statsSetUpListener
  split
  · split
    · exact hf c _ c.stats _
    · rfl
  · split
    · exact hf c c.lobbies _ _
    · rfl
  · rfl

theorem appear_keeps
    (hf : ∀ (c : Client) transitions lobbies stats observers,
      f { c with transitions, lobbies, stats, observers } = f c) : f c.appear = f c := by
  rcases c.appear_cases with ⟨-, ha⟩ | ⟨t, rest, obs, -, -, ha⟩
  · rw [ha]
  · have hshown := viewWillAppear_keeps f (fun c => hf c c.transitions)
      (c := { c with transitions := rest, observers := obs }) t.appears
    rw [ha, hshown]
    exact hf c rest c.lobbies c.stats obs

end

/-! ## The screens -/

@[simp] theorem link_showSetup : c.showSetup.link = c.link := by
  unfold showSetup
  split
  · exact present_keeps link (fun _ _ _ => rfl) none (.setup c.nextSetup) fun _ => rfl
  · rfl

@[simp] theorem link_backTUI : c.backTUI.link = c.link := by
  unfold backTUI; split <;> rfl

@[simp] theorem link_editBetAmount (value : Option ℚ) : (c.editBetAmount value).link = c.link := by
  unfold editBetAmount; split <;> rfl

@[simp] theorem link_presentLobby (sender : Option Screen) (betAmount : Option ℚ) :
    (c.presentLobby sender betAmount).link = c.link :=
  present_keeps link (fun _ _ _ => rfl) _ _ fun _ => rfl

@[simp] theorem currentRID_presentLobby (sender : Option Screen) (betAmount : Option ℚ) :
    (c.presentLobby sender betAmount).currentRID = c.currentRID :=
  congrArg Link.currentRID (link_presentLobby sender betAmount)

@[simp] theorem outbox_presentLobby (sender : Option Screen) (betAmount : Option ℚ) :
    (c.presentLobby sender betAmount).outbox = c.outbox :=
  congrArg Link.outbox (link_presentLobby sender betAmount)

@[simp] theorem acks_presentLobby (sender : Option Screen) (betAmount : Option ℚ) :
    (c.presentLobby sender betAmount).acks = c.acks :=
  congrArg Link.acks (link_presentLobby sender betAmount)

@[simp] theorem checks_presentLobby (sender : Option Screen) (betAmount : Option ℚ) :
    (c.presentLobby sender betAmount).checks = c.checks :=
  congrArg Link.checks (link_presentLobby sender betAmount)

@[simp] theorem transactions_presentLobby (sender : Option Screen) (betAmount : Option ℚ) :
    (c.presentLobby sender betAmount).transactions = c.transactions :=
  congrArg Link.transactions (link_presentLobby sender betAmount)

@[simp] theorem seen_presentLobby (sender : Option Screen) (betAmount : Option ℚ) :
    (c.presentLobby sender betAmount).seen = c.seen :=
  congrArg Link.seen (link_presentLobby sender betAmount)

@[simp] theorem link_dismiss : c.dismiss.link = c.link := by
  unfold dismiss; split <;> rfl

@[simp] theorem link_setUpLabel : c.setUpLabel.link = c.link :=
  setUpLabel_keeps link fun _ _ => rfl

@[simp] theorem link_performRoomStats (id : ℕ) : (c.performRoomStats id).link = c.link :=
  present_keeps link (fun _ _ _ => rfl) _ _ fun _ => link_setUpLabel

@[simp] theorem link_performToResults (vc : RoomStatsViewController) :
    (c.performToResults vc).link = c.link :=
  present_keeps link (fun _ _ _ => rfl) _ _ fun _ => rfl

@[simp] theorem link_viewWillAppear (s : Option Screen) : (c.viewWillAppear s).link = c.link :=
  viewWillAppear_keeps link (fun _ _ _ _ => rfl) s

@[simp] theorem link_appear : c.appear.link = c.link :=
  appear_keeps link fun _ _ _ _ _ => rfl

@[simp] theorem link_updateTimer (now : ℚ) : (c.updateTimer now).link = c.link := by
  unfold updateTimer
  split
  · split
    · exact link_performToResults _
    · rfl
  · rfl

@[simp] theorem link_lockcomplete : c.lockcomplete.link = c.link := by
  unfold lockcomplete; split <;> rfl

/-- The events that bring nothing from the server and send nothing to it. -/
def onScreen : ClientEvent → Bool
  | .showSetup | .backTUI | .editBetAmount _ | .dismiss | .appear | .updateTimer
  | .willEnterForeground | .lockcomplete => true
  | _ => false

section
variable {δ : Type*} [RealtimeDatabase δ]

theorem link_step (env : Env δ) {e : ClientEvent} (h : onScreen e = true) :
    (c.step env e).client.link = c.link := by
  cases e with
  | showSetup => exact link_showSetup
  | backTUI => exact link_backTUI
  | editBetAmount value => exact link_editBetAmount value
  | dismiss => exact link_dismiss
  | appear => exact link_appear
  | updateTimer => exact link_updateTimer env.now
  | willEnterForeground => rfl
  | lockcomplete => exact link_lockcomplete
  | _ => cases h

@[simp] theorem link_deliver (k : ℕ) (o : Observer) (db : δ) :
    (c.deliver k o db).link = c.link := by
  obtain ⟨obs, -, heq⟩ := c.deliver_eq k o db
  rw [heq]
  split
  · unfold observeEventBlock
    simp only
    split
    · exact link_performRoomStats _
    · rfl
  · unfold listener
    split
    · split
      · exact link_performToResults _
      · rfl
    · rfl
  · unfold setUpLabelCompletion; split <;> rfl

/-- A snapshot tells the client of a server state and leaves the rest alone. -/
theorem link_snapshot (env : Env δ) (k i : ℕ) (overlaid : Bool) :
    ∃ n, c.seen ≤ n ∧ (c.snapshot env k i overlaid).link = { c.link with seen := n } := by
  unfold snapshot
  split
  · rename_i o db _ _
    refine ⟨max c.seen i, le_max_left _ _, ?_⟩
    rw [← link_deliver (c := c) k o db]
    rfl
  · exact ⟨c.seen, le_rfl, rfl⟩

end

/-! ## The events behind the screens -/

/-- The part of a client that faces the user, and its observers. -/
structure Face where
  screens : List Screen
  transitions : List Transition
  lobbies : List QRCodeGeneratorViewController
  results : Option ResultsViewController
  delegate : Bool
  observers : List Observer

def face (c : Client) : Face :=
  ⟨c.screens, c.transitions, c.lobbies, c.results, c.delegate, c.observers⟩

/-- The events that open and close no screen and bring no snapshot. -/
def quiet : ClientEvent → Bool
  | .editBetAmount _ | .createTUI _ | .scanQRCode _ | .startRoomTUI | .deliverWrite _
  | .didEnterBackground | .willEnterForeground | .lockcomplete | .check _ | .runBlock _ _
  | .compare _ | .completion _ _ => true
  | _ => false

theorem face_step {δ : Type*} [RealtimeDatabase δ] (env : Env δ) {e : ClientEvent}
    (h : quiet e = true) : (c.step env e).client.face = c.face := by
  cases e with
  | editBetAmount value => simp only [step, editBetAmount]; split <;> rfl
  | createTUI timeLimit =>
    simp only [step, createTUI]
    split
    · rename_i c' hc'
      split at hc'
      · cases hc'; rfl
      · cases hc'
    · rfl
  | scanQRCode text => simp only [step, scanQRCode]; split <;> rfl
  | startRoomTUI => simp only [step, startRoomTUI]; split <;> rfl
  | deliverWrite accepted =>
    simp only [step, deliverWrite]
    split
    · split <;> rfl
    · rfl
  | didEnterBackground =>
    simp only [step, didEnterBackground, appBackgrounded]
    split
    · split <;> rfl
    · rfl
  | willEnterForeground => rfl
  | lockcomplete => simp only [step, lockcomplete, deviceLocked]; split <;> rfl
  | check k =>
    simp only [step, check]
    split
    · split
      · rfl
      · split <;> rfl
    · rfl
  | runBlock k currentData => rfl
  | compare k =>
    simp only [step, compare]
    split
    · split <;> rfl
    · rfl
  | completion k error =>
    simp only [step, transactionCompletion]
    split
    · split <;> rfl
    · rfl
  | _ => cases h

/-! ## Answers -/

/-- The write takes its client into the room: its completion opens a lobby. -/
def opens : RoomOp → Bool
  | .createAndJoinRoom _ _ _ => true
  | .joinRoomWithRID _ _ => true
  | _ => false

/-- The room that a write creates. -/
def created : RoomOp → Option String
  | .createAndJoinRoom rid _ _ => some rid
  | _ => none

theorem rid_of_created {op : RoomOp} {rid : String} (h : created op = some rid) : op.rid = rid := by
  cases op with
  | createAndJoinRoom => exact Option.some.inj h
  | joinRoomWithRID => cases h
  | startRoom => cases h
  | mark => cases h

/-- The oldest answer is read. -/
def answered (c : Client) (answer : Option ℕ) (rest : List (Write × Option ℕ)) : Client :=
  { c with acks := rest, seen := max c.seen (answer.getD 0) }

/-- The oldest answer lets its client into the room `rid`. -/
def admitted (c : Client) (rid : String) (n : ℕ) (rest : List (Write × Option ℕ)) : Client :=
  { c with currentRID := some rid, acks := rest, seen := max c.seen n }

/-- The rid that the next answer puts into `currentRID`, if it does. -/
def admits (c : Client) : Option String :=
  match c.acks with
  | (w, some _) :: _ => if opens w.op then some w.op.rid else none
  | _ => none

/-- What reading an answer does: a positive one to a creation or a join sets the
rid and performs the segue to the lobby, any other answer is only read. -/
theorem ack_cases (c : Client) :
    (c.acks = [] ∧ c.ack = c) ∨
    (∃ w answer rest, c.acks = (w, answer) :: rest ∧ c.admits = none ∧
      c.ack = c.answered answer rest) ∨
    (∃ w n rest betAmount, c.acks = (w, some n) :: rest ∧ opens w.op = true ∧
      c.admits = some w.op.rid ∧
      c.ack = (c.admitted w.op.rid n rest).presentLobby w.sender betAmount) := by
  cases ha : c.acks with
  | nil => exact .inl ⟨rfl, by simp [ack, ha]⟩
  | cons a rest =>
    obtain ⟨⟨op, sender⟩, answer⟩ := a
    cases answer with
    | none =>
      refine .inr (.inl ⟨_, _, _, rfl, by simp [admits, ha], ?_⟩)
      simp [ack, ha, answered]
    | some n =>
      cases op with
      | createAndJoinRoom rid room user =>
        exact .inr (.inr ⟨_, n, rest, c.betAmountField, rfl, rfl, by simp [admits, ha, opens],
          by simp [ack, ha, admitted, RoomOp.rid]⟩)
      | joinRoomWithRID rid user =>
        exact .inr (.inr ⟨_, n, rest, none, rfl, rfl, by simp [admits, ha, opens],
          by simp [ack, ha, admitted, RoomOp.rid]⟩)
      | startRoom rid ts =>
        exact .inr (.inl ⟨_, _, _, rfl, by simp [admits, ha, opens], by simp [ack, ha, answered]⟩)
      | mark rid uid ts =>
        exact .inr (.inl ⟨_, _, _, rfl, by simp [admits, ha, opens], by simp [ack, ha, answered]⟩)

/-- A client that has read a positive answer knows the state it is about. -/
theorem seen_ack {w : Write} {n : ℕ} {rest : List (Write × Option ℕ)}
    (h : c.acks = (w, some n) :: rest) : n ≤ c.ack.seen := by
  rcases ack_cases c with ⟨hn, -⟩ | ⟨w', answer, rest', ha, -, hack⟩ |
    ⟨w', n', rest', bet, ha, -, -, hack⟩
  · rw [h] at hn
    cases hn
  · rw [h] at ha
    cases ha
    rw [hack]
    exact le_max_right _ _
  · rw [h] at ha
    cases ha
    rw [hack, seen_presentLobby]
    exact le_max_right _ _

/-! ## The writes on their way -/

/-- Every write of the client that the server has not answered, or whose answer
the client has not seen, meets `P`. -/
def Writes (P : Write → Prop) (c : Client) : Prop :=
  (∀ w ∈ c.outbox, P w) ∧ ∀ a ∈ c.acks, P a.1

theorem Writes.mono {P Q : Write → Prop} (h : c.Writes P) (hpq : ∀ w, P w → Q w) : c.Writes Q :=
  ⟨fun w hw => hpq w (h.1 w hw), fun a ha => hpq a.1 (h.2 a ha)⟩

/-- The write an event puts into the outbox. -/
inductive Emits {δ : Type*} (env : Env δ) (c : Client) : ClientEvent → Write → Prop
  | create {id : ℕ} {timeLimit betAmount : ℚ} (hfront : c.screens.head? = some (.setup id))
      (hbet : c.betAmountField = some betAmount) :
      Emits env c (.createTUI timeLimit)
        ⟨.createAndJoinRoom env.autoId ⟨timeLimit, betAmount, 0⟩ env.user, some (.setup id)⟩
  | join {text : String} :
      Emits env c (.scanQRCode text) ⟨.joinRoomWithRID text env.user, none⟩
  | start {rid : String} (htarget : c.startTarget = some rid) :
      Emits env c .startRoomTUI ⟨.startRoom rid env.now, none⟩

/-- The Start button starts the current room. -/
theorem currentRID_of_startTarget {rid : String} (h : c.startTarget = some rid) :
    c.currentRID = some rid := by
  unfold startTarget at h
  split at h
  · exact h
  · cases h

section
variable {δ : Type*} [RealtimeDatabase δ]

/-- What a step does to the writes on their way: it sends one, the server takes the
oldest and answers it, the client reads the oldest answer, or a relaunch drops
them all. A creation uses up the fresh id, and but for a relaunch the client is
never told of an older state than before. -/
inductive QueueStep (env : Env δ) (c : Client) (e : ClientEvent) (o : Outcome) : Prop
  | same : o.client.acks = c.acks → o.client.outbox = c.outbox → o.fresh = false →
      c.seen ≤ o.client.seen → QueueStep env c e o
  | sent {w : Write} : Emits env c e w → o.client.acks = c.acks →
      o.client.outbox = c.outbox ++ [w] → o.fresh = (created w.op).isSome →
      c.seen ≤ o.client.seen → QueueStep env c e o
  | delivered {w : Write} {accepted : Bool} : e = .deliverWrite accepted →
      o.client.acks = c.acks ++ [(w, if accepted then some env.history.length else none)] →
      c.outbox = w :: o.client.outbox → o.fresh = false → c.seen ≤ o.client.seen →
      QueueStep env c e o
  | answered {a : Write × Option ℕ} : e = .ack → c.acks = a :: o.client.acks →
      o.client.outbox = c.outbox → o.fresh = false → c.seen ≤ o.client.seen → QueueStep env c e o
  | relaunched : e = .relaunch → o.client.acks = [] → o.client.outbox = [] → o.fresh = false →
      QueueStep env c e o

theorem queue_step (env : Env δ) (e : ClientEvent) : QueueStep env c e (c.step env e) := by
  by_cases hon : onScreen e = true
  · have hl := link_step (c := c) env hon
    have hfresh : (c.step env e).fresh = false := by
      cases e with
      | createTUI timeLimit => cases hon
      | deliverWrite accepted => cases hon
      | compare k => cases hon
      | _ => rfl
    exact .same (congrArg Link.acks hl) (congrArg Link.outbox hl) hfresh (congrArg Link.seen hl).ge
  cases e with
  | createTUI timeLimit =>
    simp only [step, createTUI]
    split
    · rename_i c' hc'
      split at hc'
      · rename_i id betAmount hfront hbet
        cases hc'
        exact .sent (.create hfront hbet) rfl rfl rfl le_rfl
      · cases hc'
    · exact .same rfl rfl rfl le_rfl
  | scanQRCode text =>
    simp only [step, scanQRCode]
    split
    · exact .sent .join rfl rfl rfl le_rfl
    · exact .same rfl rfl rfl le_rfl
  | startRoomTUI =>
    simp only [step, startRoomTUI]
    split
    · rename_i rid htarget
      exact .sent (.start htarget) rfl rfl rfl le_rfl
    · exact .same rfl rfl rfl le_rfl
  | deliverWrite accepted =>
    simp only [step, deliverWrite]
    split
    · rename_i w rest ho
      cases accepted with
      | true => exact .delivered rfl rfl ho rfl le_rfl
      | false => exact .delivered rfl rfl ho rfl le_rfl
    · exact .same rfl rfl rfl le_rfl
  | ack =>
    simp only [step]
    rcases ack_cases c with ⟨-, hack⟩ | ⟨w, answer, rest, ha, -, hack⟩ |
      ⟨w, n, rest, betAmount, ha, -, -, hack⟩
    · rw [hack]
      exact .same rfl rfl rfl le_rfl
    · rw [hack]
      exact .answered rfl ha rfl rfl (le_max_left _ _)
    · rw [hack]
      exact .answered rfl (ha.trans (by rw [acks_presentLobby]; rfl)) (outbox_presentLobby _ _) rfl
        (by rw [seen_presentLobby]; exact le_max_left _ _)
  | relaunch => exact .relaunched rfl rfl rfl rfl
  | snapshot k i overlaid =>
    obtain ⟨n, hn, hl⟩ := link_snapshot (c := c) env k i overlaid
    exact .same (congrArg Link.acks hl) (congrArg Link.outbox hl) rfl
      (hn.trans (congrArg Link.seen hl).ge)
  | didEnterBackground =>
    simp only [step, didEnterBackground, appBackgrounded]
    split
    · split <;> exact .same rfl rfl rfl le_rfl
    · exact .same rfl rfl rfl le_rfl
  | check k =>
    simp only [step, check]
    split
    · split
      · exact .same rfl rfl rfl le_rfl
      · split <;> exact .same rfl rfl rfl le_rfl
    · exact .same rfl rfl rfl le_rfl
  | completion k error =>
    simp only [step, transactionCompletion]
    split
    · split <;> exact .same rfl rfl rfl le_rfl
    · exact .same rfl rfl rfl le_rfl
  | compare k =>
    simp only [step, compare]
    split
    · split <;> exact .same rfl rfl rfl le_rfl
    · exact .same rfl rfl rfl le_rfl
  | runBlock k currentData => exact .same rfl rfl rfl le_rfl
  | _ => exact absurd rfl hon

/-- A process is never told of an older state than before. -/
theorem seen_step (env : Env δ) {e : ClientEvent} (hl : e ≠ .relaunch) :
    c.seen ≤ (c.step env e).client.seen := by
  cases queue_step (c := c) env e with
  | same _ _ _ hseen => exact hseen
  | sent _ _ _ _ hseen => exact hseen
  | delivered _ _ _ _ hseen => exact hseen
  | answered _ _ _ _ hseen => exact hseen
  | relaunched he => exact absurd he hl

/-- What is left of the client's answers after a step, and the one new answer. -/
theorem acks_step (env : Env δ) (e : ClientEvent) {a : Write × Option ℕ}
    (ha : a ∈ (c.step env e).client.acks) :
    a ∈ c.acks ∨ ∃ w rest accepted, e = .deliverWrite accepted ∧ c.outbox = w :: rest ∧
      a = (w, if accepted then some env.history.length else none) := by
  cases queue_step (c := c) env e with
  | same hacks => exact .inl (hacks ▸ ha)
  | sent _ hacks => exact .inl (hacks ▸ ha)
  | delivered he hacks ho =>
    rw [hacks] at ha
    rcases List.mem_append.mp ha with ha | ha
    · exact .inl ha
    · exact .inr ⟨_, _, _, he, ho, List.mem_singleton.mp ha⟩
  | answered _ hacks =>
    rw [hacks]
    exact .inl (List.mem_cons_of_mem _ ha)
  | relaunched _ hacks =>
    rw [hacks] at ha
    exact (List.not_mem_nil ha).elim

/-- **What a step does to the writes on their way.** A property of them is kept
when the write that the step emits, if any, has it. -/
theorem Writes.step {P : Write → Prop} (h : c.Writes P) (env : Env δ) (e : ClientEvent)
    (hemit : ∀ w, Emits env c e w → P w) : (c.step env e).client.Writes P := by
  refine ⟨?_, ?_⟩
  · intro w hw
    cases queue_step (c := c) env e with
    | same _ ho => exact h.1 w (ho ▸ hw)
    | sent hw' _ ho =>
      rw [ho] at hw
      rcases List.mem_append.mp hw with hw | hw
      · exact h.1 w hw
      · exact List.mem_singleton.mp hw ▸ hemit _ hw'
    | delivered _ _ ho =>
      rw [Writes, ho] at h
      exact h.1 w (List.mem_cons_of_mem _ hw)
    | answered _ _ ho => exact h.1 w (ho ▸ hw)
    | relaunched _ _ ho =>
      rw [ho] at hw
      exact (List.not_mem_nil hw).elim
  · intro a ha
    rcases acks_step env e ha with ha | ⟨w, rest, accepted, -, ho, rfl⟩
    · exact h.2 a ha
    · exact h.1 w (by rw [ho]; exact List.mem_cons_self)

/-! ## The transactions -/

/-- The events that deal with transactions. -/
def marking : ClientEvent → Bool
  | .check _ | .runBlock _ _ | .compare _ | .completion _ _ | .relaunch => true
  | _ => false

/-- The other events leave the transactions alone, and only one of them adds a check. -/
theorem marks_step (env : Env δ) {e : ClientEvent} (h : marking e = false) :
    (c.step env e).client.transactions = c.transactions ∧
      (e ≠ .didEnterBackground → (c.step env e).client.checks = c.checks) := by
  by_cases hon : onScreen e = true
  · have hl := link_step (c := c) env hon
    exact ⟨congrArg Link.transactions hl, fun _ => congrArg Link.checks hl⟩
  cases e with
  | check | runBlock | compare | completion | relaunch => cases h
  | ack =>
    simp only [step]
    rcases ack_cases c with ⟨-, hack⟩ | ⟨w, answer, rest, -, -, hack⟩ |
      ⟨w, n, rest, bet, -, -, -, hack⟩
    · rw [hack]
      exact ⟨rfl, fun _ => rfl⟩
    · rw [hack]
      exact ⟨rfl, fun _ => rfl⟩
    · rw [hack, transactions_presentLobby, checks_presentLobby]
      exact ⟨rfl, fun _ => rfl⟩
  | snapshot k i overlaid =>
    obtain ⟨n, -, hl⟩ := link_snapshot (c := c) env k i overlaid
    exact ⟨congrArg Link.transactions hl, fun _ => congrArg Link.checks hl⟩
  | createTUI timeLimit =>
    simp only [step, createTUI]
    split
    · rename_i c' hc'
      split at hc'
      · cases hc'
        exact ⟨rfl, fun _ => rfl⟩
      · cases hc'
    · exact ⟨rfl, fun _ => rfl⟩
  | deliverWrite accepted =>
    simp only [step, deliverWrite]
    split
    · split <;> exact ⟨rfl, fun _ => rfl⟩
    · exact ⟨rfl, fun _ => rfl⟩
  | scanQRCode text =>
    simp only [step, scanQRCode]
    split <;> exact ⟨rfl, fun _ => rfl⟩
  | startRoomTUI =>
    simp only [step, startRoomTUI]
    split <;> exact ⟨rfl, fun _ => rfl⟩
  | didEnterBackground =>
    refine ⟨?_, fun hb => absurd rfl hb⟩
    simp only [step, didEnterBackground, appBackgrounded]
    split
    · split <;> rfl
    · rfl
  | _ => exact absurd rfl hon

/-- Where a transaction of the client after a step comes from: it was there, its
block ran or has to run again, the server took it, or a check with the flag set began it. -/
inductive TransactionStep (env : Env δ) (c : Client) (e : ClientEvent) : Transaction → Prop
  | same {t : Transaction} : t ∈ c.transactions → TransactionStep env c e t
  | ran {t : Transaction} (value : Option Leaf) : t ∈ c.transactions →
      TransactionStep env c e { t with run := some (value, env.now) }
  | returned {t : Transaction} : t ∈ c.transactions →
      TransactionStep env c e { t with run := none }
  | committed {t : Transaction} : t ∈ c.transactions →
      TransactionStep env c e { t with committed := true }
  | begun {k : ℕ} {ch : Check} : e = .check k → c.checks[k]? = some ch → ch.due ≤ env.now →
      c.markFlag = true → TransactionStep env c e ⟨ch.rid, ch.task, none, false⟩

theorem transaction_step (env : Env δ) (e : ClientEvent) {t : Transaction}
    (ht : t ∈ (c.step env e).client.transactions) : TransactionStep env c e t := by
  by_cases hm : marking e = false
  · exact .same ((marks_step env hm).1 ▸ ht)
  cases e with
  | check k =>
    simp only [step, check] at ht
    split at ht
    · rename_i ch hch
      split at ht
      · exact .same ht
      · rename_i hdue
        split at ht
        · rename_i hflag
          rcases List.mem_append.mp ht with ht | ht
          · exact .same ht
          · rw [List.mem_singleton.mp ht]
            exact .begun rfl hch (not_lt.mp hdue) hflag
        · exact .same ht
    · exact .same ht
  | runBlock k currentData =>
    obtain ⟨j, hj⟩ := List.mem_iff_getElem?.mp ht
    rw [show (c.step env (.runBlock k currentData)).client.transactions =
      c.transactions.modify k _ from rfl, List.getElem?_modify] at hj
    obtain ⟨t₀, ht₀, rfl⟩ := Option.map_eq_some_iff.mp hj
    have hm := List.mem_of_getElem? ht₀
    split
    · split
      · exact .same hm
      · exact .ran currentData hm
    · exact .same hm
  | compare k =>
    simp only [step, compare] at ht
    split at ht
    · rename_i rid task value now hk
      have hm := List.mem_of_getElem? hk
      split at ht
      · rcases List.mem_or_eq_of_mem_set ht with ht | rfl
        · exact .same ht
        · exact .committed hm
      · rcases List.mem_or_eq_of_mem_set ht with ht | rfl
        · exact .same ht
        · exact .returned hm
    · exact .same ht
  | completion k error =>
    simp only [step, transactionCompletion] at ht
    split at ht
    · split at ht
      · exact .same (List.mem_of_mem_eraseIdx ht)
      · exact .same ht
    · exact .same ht
  | relaunch => exact (List.not_mem_nil ht).elim
  | _ => exact absurd rfl hm

end

end Client

end Unplug.App
