import Unplug.App.Navigation

/-! # How often the game ends

Every call a step makes on the platform is read off the step. So the segues a
process performed are counted by the steps that trigger them: a snapshot of a
started room for the lobby's segue, a snapshot with a loser or a late tick for
the one to the results. -/
namespace Unplug.App
open Unplug.Store Unplug.Firebase Unplug.Machine RealtimeDatabase

namespace Client
section
variable {δ : Type*} [RealtimeDatabase δ]

/-! ## The calls of a step -/

/-- The calls that delivering a snapshot makes. -/
def issuedByDeliver (c : Client) (o : Observer) (db : δ) : List Call :=
  match o.block with
  | .lobby id => if started db o.ref then [.performRoomStats id] else []
  | .stats => match c.stats with
    | some vc => if loserName db o.ref ≠ "" then
        [.performToResults (some (loserName db o.ref)) vc.betAmount] else []
    | none => []
  | .setUpLabel => match c.stats, getInfoForRID db o.ref with
    | some _, some (betAmount, _, _) => [.setStatLabel betAmount]
    | _, _ => []

/-- The calls a step makes. -/
def issued (env : Env δ) (c : Client) : ClientEvent → List Call
  | .snapshot k i overlaid => match c.observers[k]?, c.view env i overlaid with
    | some o, some db => c.issuedByDeliver o db
    | _, _ => []
  | .updateTimer => match c.stats with
    | some vc => if vc.timer = .scheduled ∧ vc.timeLeft env.now < 1 then
        [.performToResults vc.loserName vc.betAmount] else []
    | none => []
  | .didEnterBackground =>
    if c.delegate ∧ c.currentRID.isSome then [.beginBackgroundTask c.nextTask] else []
  | .check k => match c.checks[k]? with
    | some ch => if env.now < ch.due then []
      else if c.markFlag then [.runTransaction ch.task] else [.endBackgroundTask ch.task]
    | none => []
  | .completion k error => match c.transactions[k]? with
    | some t => if t.committed || error then
        [.postYouLost (c.stats.bind (·.betAmount)), .endBackgroundTask t.task] else []
    | none => []
  | _ => []

variable {c : Client}

theorem calls_setUpLabel : c.setUpLabel.calls = c.calls :=
  setUpLabel_keeps Client.calls fun _ _ => rfl

theorem calls_performRoomStats (id : ℕ) :
    (c.performRoomStats id).calls = c.calls ++ [.performRoomStats id] :=
  present_keeps Client.calls (fun _ _ _ => rfl) _ _ fun _ => calls_setUpLabel

theorem calls_performToResults (vc : RoomStatsViewController) :
    (c.performToResults vc).calls = c.calls ++ [.performToResults vc.loserName vc.betAmount] :=
  present_keeps Client.calls (fun _ _ _ => rfl) _ _ fun _ => rfl

theorem calls_appear : c.appear.calls = c.calls :=
  appear_keeps Client.calls fun _ _ _ _ _ => rfl

theorem calls_deliver (k : ℕ) (o : Observer) (db : δ) :
    (c.deliver k o db).calls = c.calls ++ c.issuedByDeliver o db := by
  obtain ⟨obs, -, heq⟩ := c.deliver_eq k o db
  rw [heq]
  unfold issuedByDeliver
  cases o.block with
  | lobby id =>
    simp only [observeEventBlock]
    split
    · exact calls_performRoomStats id
    · simp
  | stats =>
    simp only [listener]
    cases c.stats with
    | none => simp
    | some vc =>
      simp only
      split
      · exact calls_performToResults _
      · simp
  | setUpLabel =>
    simp only [setUpLabelCompletion]
    cases c.stats with
    | none => simp
    | some vc => cases getInfoForRID db o.ref <;> simp

/-- **The calls of a step are what the step issues.** -/
theorem calls_step (env : Env δ) {e : ClientEvent} (hl : e ≠ .relaunch) :
    (c.step env e).client.calls = c.calls ++ c.issued env e := by
  cases e with
  | relaunch => exact absurd rfl hl
  | snapshot k i overlaid =>
    simp only [step, snapshot, issued]
    cases c.observers[k]? with
    | none => simp
    | some o =>
      cases c.view env i overlaid with
      | none => simp
      | some db => exact calls_deliver k o db
  | updateTimer =>
    simp only [step, updateTimer, issued]
    cases c.stats with
    | none => simp
    | some vc =>
      simp only
      split
      · exact calls_performToResults _
      · simp
  | didEnterBackground =>
    simp only [step, didEnterBackground, appBackgrounded, issued]
    by_cases hd : c.delegate = true
    · cases c.currentRID <;> simp [hd]
    · simp [hd]
  | check k =>
    have hflag : markFlag { c with checks := c.checks.eraseIdx k } = c.markFlag := rfl
    simp only [step, check, issued]
    cases c.checks[k]? with
    | none => simp
    | some ch =>
      simp only [hflag]
      split
      · simp
      · split <;> rfl
  | completion k error =>
    simp only [step, transactionCompletion, issued]
    cases c.transactions[k]? with
    | none => simp
    | some t =>
      simp only
      split
      · rfl
      · simp
  | ack =>
    simp only [step, issued, List.append_nil]
    rcases ack_cases c with ⟨-, hack⟩ | ⟨w, answer, rest, -, -, hack⟩ |
      ⟨w, n, rest, bet, -, -, -, hack⟩
    · rw [hack]
    · rw [hack]; rfl
    · rw [hack]
      exact present_keeps Client.calls (fun _ _ _ => rfl) _ _ fun _ => rfl
  | appear =>
    simp only [step, issued, List.append_nil]
    exact calls_appear
  | showSetup =>
    simp only [step, showSetup, issued, List.append_nil]
    split
    · exact present_keeps Client.calls (fun _ _ _ => rfl) (c := c) none (.setup c.nextSetup)
        fun _ => rfl
    · rfl
  | backTUI => simp only [step, backTUI, issued, List.append_nil]; split <;> rfl
  | dismiss => simp only [step, dismiss, issued, List.append_nil]; split <;> rfl
  | editBetAmount value => simp only [step, editBetAmount, issued, List.append_nil]; split <;> rfl
  | scanQRCode text => simp only [step, scanQRCode, issued, List.append_nil]; split <;> rfl
  | startRoomTUI => simp only [step, startRoomTUI, issued, List.append_nil]; split <;> rfl
  | willEnterForeground => simp only [step, willEnterForeground, issued, List.append_nil]
  | lockcomplete =>
    simp only [step, lockcomplete, deviceLocked, issued, List.append_nil]; split <;> rfl
  | runBlock k currentData => simp only [step, runBlock, issued, List.append_nil]
  | createTUI timeLimit =>
    simp only [step, createTUI, issued, List.append_nil]
    split
    · rename_i c' hc'
      split at hc'
      · cases hc'; rfl
      · cases hc'
    · rfl
  | deliverWrite accepted =>
    simp only [step, deliverWrite, issued, List.append_nil]
    split
    · split <;> rfl
    · rfl
  | compare k =>
    simp only [step, compare, issued, List.append_nil]
    split
    · split <;> rfl
    · rfl

/-! ## The two segues -/

/-- The step shows the block of the lobby `id` a started room. -/
def seesStart (id : ℕ) (env : Env δ) (c : Client) : ClientEvent → Bool
  | .snapshot k i overlaid => match c.observers[k]?, c.view env i overlaid with
    | some o, some db => decide (o.block = .lobby id) && started db o.ref
    | _, _ => false
  | _ => false

/-- The step shows the stats controller's listener a loser, or the timer that
the time is up. -/
def seesEnd (env : Env δ) (c : Client) : ClientEvent → Bool
  | .snapshot k i overlaid => match c.observers[k]?, c.view env i overlaid with
    | some o, some db => decide (o.block = .stats) && decide (loserName db o.ref ≠ "")
    | _, _ => false
  | .updateTimer => match c.stats with
    | some vc => decide (vc.timer = .scheduled) && decide (vc.timeLeft env.now < 1)
    | none => false
  | _ => false

def roomStatsCalls (c : Client) (id : ℕ) : ℕ := c.calls.count (.performRoomStats id)

def toResultsCalls (c : Client) : ℕ :=
  c.calls.countP fun call => match call with
    | .performToResults _ _ => true
    | _ => false

theorem roomStatsCalls_step (env : Env δ) {e : ClientEvent} (hl : e ≠ .relaunch) (id : ℕ) :
    (c.step env e).client.roomStatsCalls id =
      c.roomStatsCalls id + (c.seesStart id env e).toNat := by
  unfold roomStatsCalls
  rw [calls_step env hl, List.count_append]
  congr 1
  cases e with
  | snapshot k i overlaid =>
    simp only [issued, seesStart]
    cases c.observers[k]? with
    | none => rfl
    | some o =>
      cases c.view env i overlaid with
      | none => rfl
      | some db =>
        simp only [issuedByDeliver]
        cases hb : o.block with
        | lobby id' =>
          by_cases hid : id' = id
          · cases hst : started db o.ref <;> simp [hid]
          · cases hst : started db o.ref <;> simp [hid]
        | stats =>
          simp only
          split
          · split <;> simp
          · simp
        | setUpLabel =>
          simp only
          split <;> simp
  | updateTimer =>
    simp only [issued, seesStart]
    split
    · split <;> simp
    · simp
  | didEnterBackground =>
    simp only [issued, seesStart]
    split <;> simp
  | check k =>
    simp only [issued, seesStart]
    split
    · split
      · simp
      · split <;> simp
    · simp
  | completion k error =>
    simp only [issued, seesStart]
    split
    · split <;> simp
    · simp
  | _ => rfl

theorem toResultsCalls_step (h : c.Nav) (env : Env δ) {e : ClientEvent} (hl : e ≠ .relaunch) :
    (c.step env e).client.toResultsCalls = c.toResultsCalls + (c.seesEnd env e).toNat := by
  unfold toResultsCalls
  rw [calls_step env hl, List.countP_append]
  congr 1
  cases e with
  | snapshot k i overlaid =>
    simp only [issued, seesEnd]
    cases hk : c.observers[k]? with
    | none => rfl
    | some o =>
      cases c.view env i overlaid with
      | none => rfl
      | some db =>
        simp only [issuedByDeliver]
        cases hb : o.block with
        | lobby id =>
          simp only
          split <;> simp
        | stats =>
          -- a registered listener means that its controller is loaded
          cases hs : c.stats with
          | none =>
            obtain ⟨id, hid⟩ := (h.idle (by rw [hs]; rfl)).2.2.2.1 o (List.mem_of_getElem? hk)
            rw [hb] at hid; cases hid
          | some vc => by_cases hn : loserName db o.ref = "" <;> simp [hn]
        | setUpLabel =>
          simp only
          split <;> simp
  | updateTimer =>
    simp only [issued, seesEnd]
    split
    · rename_i vc _
      by_cases h1 : vc.timer = .scheduled <;> by_cases h2 : vc.timeLeft env.now < 1 <;>
        simp [h1, h2]
    · rfl
  | didEnterBackground =>
    simp only [issued, seesEnd]
    split <;> simp
  | check k =>
    simp only [issued, seesEnd]
    split
    · split
      · simp
      · split <;> simp
    · simp
  | completion k error =>
    simp only [issued, seesEnd]
    split
    · split <;> simp
    · simp
  | _ => rfl

/-- Each lobby performed `roomStats` at most once, the stats controller `toResults`. -/
def EndsOnce (c : Client) : Prop := (∀ id, c.roomStatsCalls id ≤ 1) ∧ c.toResultsCalls ≤ 1

end
end Client

/-! ## One process -/

section
variable {ι δ : Type*} [DecidableEq ι] [RealtimeDatabase δ]

/-- The step is one of the client `x` and meets `p` there. -/
def atClient (D : Deployment ι) (x : ι) (p : Env δ → Client → ClientEvent → Bool)
    (s : System ι δ) : Event ι → Bool
  | .client c e => decide (c = x) && p (s.env D x) (s.clients x) e
  | .clock _ => false

/-- How many steps of `x` in `proc`, after `pre`, meet `p`. -/
def Deployment.countAt (D : Deployment ι) (x : ι) (p : Env δ → Client → ClientEvent → Bool)
    (pre proc : List (Event ι)) : ℕ :=
  count (System.step D) (atClient D x p) (D.run pre) proc

/-- In no process of `x` does a lobby get two snapshots of a started room, nor do
the stats controller's listener and timer together get two occasions to end the game. -/
def OneOccasion (D : Deployment ι) (δ : Type*) [RealtimeDatabase δ] (x : ι)
    (evs : List (Event ι)) : Prop :=
  ∀ pre proc, pre ++ proc <+: evs → Event.client x .relaunch ∉ proc →
    (∀ id, D.countAt (δ := δ) x (Client.seesStart id) pre proc ≤ 1) ∧
      D.countAt (δ := δ) x Client.seesEnd pre proc ≤ 1

/-- What each step of `x` that meets `p` raises, and each that meets `q` lowers, comes
out by the difference of the two counts. -/
theorem ledger_client (D : Deployment ι) (x : ι) {p q : Env δ → Client → ClientEvent → Bool}
    {f : Client → ℕ}
    (h : ∀ (c : Client) (env : Env δ) e, c.Nav → e ≠ .relaunch →
      f (c.step env e).client + (q env c e).toNat = f c + (p env c e).toNat)
    (pre : List (Event ι)) {proc : List (Event ι)} (hl : Event.client x .relaunch ∉ proc) :
    f ((D.run (pre ++ proc) : System ι δ).clients x) + D.countAt x q pre proc =
      f ((D.run pre : System ι δ).clients x) + D.countAt x p pre proc := by
  rw [run_append]
  refine ledger_exec (f := fun s : System ι δ => f (s.clients x)) fun mid e post he => ?_
  rw [← run_append]
  cases e with
  | clock t => rfl
  | client c e =>
    by_cases hx : c = x
    · subst hx
      have hne : e ≠ .relaunch := by
        intro heq
        subst heq
        exact hl (by rw [he]; simp)
      simpa [atClient] using h _ _ e (run_nav D (pre ++ mid) c).1 hne
    · rw [step_client_other D _ (Ne.symm hx)]
      simp [atClient, hx]

theorem counter_client (D : Deployment ι) (x : ι) {p : Env δ → Client → ClientEvent → Bool}
    {f : Client → ℕ}
    (h : ∀ (c : Client) (env : Env δ) e, c.Nav → e ≠ .relaunch →
      f (c.step env e).client = f c + (p env c e).toNat)
    (pre : List (Event ι)) {proc : List (Event ι)} (hl : Event.client x .relaunch ∉ proc) :
    f ((D.run (pre ++ proc) : System ι δ).clients x) =
      f ((D.run pre : System ι δ).clients x) + D.countAt x p pre proc := by
  have hnever : atClient (δ := δ) D x (fun _ _ _ => false) = fun _ _ => false := by
    funext s e
    cases e <;> simp [atClient]
  have hledger := ledger_client D x (q := fun _ _ _ => false) h pre hl
  rwa [Deployment.countAt, hnever, count_false, Nat.add_zero] at hledger

/-- A run splits at the last launch of `x`, where no call has been made. -/
theorem last_launch (D : Deployment ι) (x : ι) (evs : List (Event ι)) :
    ∃ pre proc, evs = pre ++ proc ∧ Event.client x .relaunch ∉ proc ∧
      ((D.run pre : System ι δ).clients x).calls = [] := by
  induction evs using List.reverseRecOn with
  | nil => exact ⟨[], [], rfl, by simp, rfl⟩
  | append_singleton evs e ih =>
    by_cases he : e = .client x .relaunch
    · refine ⟨evs ++ [e], [], by simp, by simp, ?_⟩
      rw [run_concat, he, step_client_self]
      rfl
    · obtain ⟨pre, proc, rfl, hl, hc⟩ := ih
      refine ⟨pre, proc ++ [e], by simp, ?_, hc⟩
      simp [hl, Ne.symm he]

/-- **The game ends once per process exactly when it gets one occasion to.** -/
theorem endsOnce_iff_oneOccasion (D : Deployment ι) (evs : List (Event ι)) (x : ι) :
    (∀ pre, pre <+: evs → ((D.run pre : System ι δ).clients x).EndsOnce) ↔
      OneOccasion D δ x evs := by
  have hstart : ∀ (id : ℕ) (c : Client) (env : Env δ) e, c.Nav → e ≠ .relaunch →
      (c.step env e).client.roomStatsCalls id =
        c.roomStatsCalls id + (c.seesStart id env e).toNat :=
    fun id c env e _ hl => Client.roomStatsCalls_step env hl id
  have hend : ∀ (c : Client) (env : Env δ) e, c.Nav → e ≠ .relaunch →
      (c.step env e).client.toResultsCalls =
        c.toResultsCalls + (c.seesEnd env e).toNat :=
    fun c env e hn hl => Client.toResultsCalls_step hn env hl
  constructor
  · intro h pre proc hpre hl
    obtain ⟨h1, h2⟩ := h _ hpre
    refine ⟨fun id => ?_, ?_⟩
    · have hc := counter_client D x (f := fun c => c.roomStatsCalls id) (hstart id) pre hl
      have := h1 id
      omega
    · have hc := counter_client D x (f := Client.toResultsCalls) hend pre hl
      omega
  · intro h pre hpre
    obtain ⟨pre, proc, rfl, hl, hcalls⟩ := last_launch (δ := δ) D x pre
    obtain ⟨h1, h2⟩ := h pre proc hpre hl
    refine ⟨fun id => ?_, ?_⟩
    · have hc := counter_client D x (f := fun c => c.roomStatsCalls id) (hstart id) pre hl
      have h0 : ((D.run pre : System ι δ).clients x).roomStatsCalls id = 0 := by
        simp [Client.roomStatsCalls, hcalls]
      have := h1 id
      omega
    · have hc := counter_client D x (f := Client.toResultsCalls) hend pre hl
      have h0 : ((D.run pre : System ι δ).clients x).toResultsCalls = 0 := by
        simp [Client.toResultsCalls, hcalls]
      omega

end

/-- Ann's lobby starts the room and opens the game; her observer of the room
stays, so Bob's late join performs the segue a second time. -/
theorem late_join_performs_again :
    ¬ ∀ pre, pre <+: [Event.client false .showSetup, .client false (.editBetAmount (some 5)),
        .client false (.createTUI 60), .client false (.deliverWrite true), .client false .ack,
        .client false .appear, .client false .appear, .client false (.snapshot 0 1 false),
        .client false (.snapshot 0 1 false), .client false .startRoomTUI,
        .client false (.deliverWrite true), .client false .ack,
        .client false (.snapshot 0 2 false), .client false .appear,
        .client true (.scanQRCode "-"), .client true (.deliverWrite true),
        .client false (.snapshot 0 3 false)] →
      ((twoPhones.run pre : System Bool LeafTree).clients false).EndsOnce := by
  intro h
  have h2 := (h _ List.prefix_rfl).1 0
  exact absurd h2 (by decide +kernel)

end Unplug.App
