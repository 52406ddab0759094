import Unplug.App.Frame

/-! # The navigation invariant

Presentations nest: a room setup may be in front of the menu, a lobby in front
of either, and in front of a lobby the stats controller and then the results,
which nothing dismisses. So a process loads at most one stats controller, and
before it does there is no check, no transaction and no delegate. -/
namespace Unplug.App
open Unplug.Store Unplug.Firebase Unplug.Machine RealtimeDatabase

/-! ## The stack of screens -/

/-- What may be presented below a lobby. -/
def Base (l : List Screen) : Prop := l = [] ∨ ∃ n, l = [.setup n]

/-- The stacks that presenting and dismissing can build. -/
inductive Shape : List Screen → Prop
  | base {l} : Base l → Shape l
  | lobby {l} (id : ℕ) : Base l → Shape (.lobby id :: l)
  | stats {l} (id : ℕ) : Base l → Shape (.stats :: .lobby id :: l)
  | results {l} (id : ℕ) : Base l → Shape (.results :: .stats :: .lobby id :: l)

theorem Base.no_lobby {l : List Screen} (h : Base l) (id : ℕ) : Screen.lobby id ∉ l := by
  rcases h with rfl | ⟨n, rfl⟩ <;> simp

theorem Base.no_stats {l : List Screen} (h : Base l) : Screen.stats ∉ l := by
  rcases h with rfl | ⟨n, rfl⟩ <;> simp

theorem Shape.of_setup {l : List Screen} {n : ℕ} (h : Shape (.setup n :: l)) : l = [] := by
  cases h with
  | base hb => rcases hb with hb | ⟨m, hb⟩ <;> simp_all

theorem Shape.of_lobby {l : List Screen} {id : ℕ} (h : Shape (.lobby id :: l)) : Base l := by
  cases h with
  | base hb => rcases hb with hb | ⟨m, hb⟩ <;> simp_all
  | lobby _ hb => exact hb

theorem Shape.base_of_sender {l : List Screen} (h : Shape l) {sender : Option Screen}
    (hs : sender = none ∨ ∃ n, sender = some (.setup n)) (hl : l.head? = sender) : Base l := by
  cases h with
  | base hb => exact hb
  | lobby | stats | results => rcases hs with rfl | ⟨n, rfl⟩ <;> simp at hl

theorem Shape.head_lobby {l : List Screen} (h : Shape l) {id : ℕ}
    (hl : l.head? = some (.lobby id)) : ∃ b, l = .lobby id :: b ∧ Base b := by
  cases h with
  | base hb => rcases hb with rfl | ⟨m, rfl⟩ <;> simp at hl
  | lobby id' hb => simp at hl; subst hl; exact ⟨_, rfl, hb⟩
  | stats | results => simp at hl

theorem Shape.head_stats {l : List Screen} (h : Shape l) (hl : l.head? = some .stats) :
    ∃ id b, l = .stats :: .lobby id :: b ∧ Base b := by
  cases h with
  | base hb => rcases hb with rfl | ⟨m, rfl⟩ <;> simp at hl
  | stats id hb => exact ⟨id, _, rfl, hb⟩
  | lobby | results => simp at hl

/-! ## The invariant -/

/-- The invariant on the parts of a client it reads. -/
structure NavParts (screens : List Screen) (lobbies : ℕ) (observers : List Observer)
    (transitions : List Transition) (loaded : Bool) (checks : List Check)
    (transactions : List Transaction) (delegate : Bool) : Prop where
  shape : Shape screens
  lobby_lt : ∀ id, Screen.lobby id ∈ screens → id < lobbies
  observer_lt : ∀ o ∈ observers, ∀ id, o.block = .lobby id → id < lobbies
  appears_lt : ∀ t ∈ transitions, ∀ id, t.appears = some (.lobby id) → id < lobbies
  stats_iff : Screen.stats ∈ screens ↔ loaded = true
  idle : loaded = false → checks = [] ∧ transactions = [] ∧ delegate = false ∧
    (∀ o ∈ observers, ∃ id, o.block = .lobby id) ∧ ∀ t ∈ transitions, t.appears ≠ some .stats

def Client.Nav (c : Client) : Prop :=
  NavParts c.screens c.lobbies.length c.observers c.transitions c.stats.isSome c.checks
    c.transactions c.delegate

namespace Client

theorem nav_launch : Nav launch where
  shape := .base (.inl rfl)
  lobby_lt _ h := by cases h
  observer_lt _ h := by cases h
  appears_lt _ h := by cases h
  stats_iff := by simp [launch]
  idle _ := by simp [launch]

variable {c : Client}

/-- Dropping observers keeps the invariant. -/
theorem Nav.observers (h : c.Nav) {obs : List Observer} (hsub : ∀ o ∈ obs, o ∈ c.observers) :
    Nav { c with observers := obs } where
  shape := h.shape
  lobby_lt := h.lobby_lt
  observer_lt o ho := h.observer_lt o (hsub o ho)
  appears_lt := h.appears_lt
  stats_iff := h.stats_iff
  idle hl :=
    have ⟨h1, h2, h3, h4, h5⟩ := h.idle hl
    ⟨h1, h2, h3, fun o ho => h4 o (hsub o ho), h5⟩

theorem Nav.lobbySetUpListener (h : c.Nav) {id : ℕ} (hid : id < c.lobbies.length) :
    (c.lobbySetUpListener id).Nav := by
  unfold Client.lobbySetUpListener
  split
  · refine ⟨h.shape, by simpa using h.lobby_lt, ?_, by simpa using h.appears_lt, h.stats_iff, ?_⟩
    · intro o ho id' hb
      rw [List.length_modify]
      rcases List.mem_append.mp ho with ho | ho
      · exact h.observer_lt o ho id' hb
      · have : id = id' := by
          rcases List.mem_cons.mp ho with rfl | ho
          · exact Block.lobby.inj hb
          · rw [List.mem_singleton.mp ho] at hb; exact Block.lobby.inj hb
        exact this ▸ hid
    · intro hl
      obtain ⟨h1, h2, h3, h4, h5⟩ := h.idle hl
      refine ⟨h1, h2, h3, fun o ho => ?_, h5⟩
      rcases List.mem_append.mp ho with ho | ho
      · exact h4 o ho
      · rcases List.mem_cons.mp ho with rfl | ho
        · exact ⟨id, rfl⟩
        · rw [List.mem_singleton.mp ho]; exact ⟨id, rfl⟩
  · exact h

theorem Nav.statsSetUpListener (h : c.Nav) (hl : c.stats.isSome = true) :
    c.statsSetUpListener.Nav := by
  unfold Client.statsSetUpListener
  split
  · refine ⟨h.shape, h.lobby_lt, ?_, h.appears_lt, by simpa using h.stats_iff, ?_⟩
    · intro o ho id hb
      rcases List.mem_append.mp ho with ho | ho
      · exact h.observer_lt o ho id hb
      · rw [List.mem_singleton.mp ho] at hb; cases hb
    · intro hn
      simp [hl] at hn
  · exact h

theorem Nav.appear (h : c.Nav) : c.appear.Nav := by
  rcases c.appear_cases with ⟨-, ha⟩ | ⟨t, rest, obs, ht, hobs, ha⟩
  · rw [ha]
    exact h
  · have hsub : ∀ u ∈ rest, u ∈ c.transitions := by
      intro u hu
      rw [ht]
      exact List.mem_cons_of_mem _ hu
    have hmem : t ∈ c.transitions := by
      rw [ht]
      exact List.mem_cons_self
    have hrest : Nav { c with transitions := rest } := by
      refine ⟨h.shape, h.lobby_lt, h.observer_lt, fun u hu => h.appears_lt u (hsub u hu),
        h.stats_iff, ?_⟩
      intro hl
      obtain ⟨h1, h2, h3, h4, h5⟩ := h.idle hl
      exact ⟨h1, h2, h3, h4, fun u hu => h5 u (hsub u hu)⟩
    have hd : Nav { c with transitions := rest, observers := obs } := hrest.observers hobs
    rw [ha]
    unfold Client.viewWillAppear
    split
    · rename_i id happ
      exact hd.lobbySetUpListener (h.appears_lt t hmem id happ)
    · rename_i happ
      refine hd.statsSetUpListener ?_
      cases hs : c.stats.isSome with
      | true => rfl
      | false => exact absurd happ ((h.idle hs).2.2.2.2 t hmem)
    · exact hd

/-! ### Presenting -/

theorem Nav.showSetup (h : c.Nav) : c.showSetup.Nav := by
  unfold Client.showSetup Client.present
  split
  · rename_i hs
    have hns : c.stats.isSome = false := by
      cases hl : c.stats.isSome with
      | false => rfl
      | true => have := h.stats_iff.mpr hl; rw [hs] at this; cases this
    rw [if_pos (by rw [hs]; rfl)]
    refine ⟨.base (.inr ⟨c.nextSetup, by rw [hs]; rfl⟩), ?_, h.observer_lt, ?_, ?_, fun hl => ?_⟩
    · intro id hid; simp [hs] at hid
    · intro t ht id ha
      rcases List.mem_append.mp ht with ht | ht
      · exact h.appears_lt t ht id ha
      · rw [List.mem_singleton.mp ht] at ha; cases ha
    · simp [hs, hns]
    · obtain ⟨h1, h2, h3, h4, h5⟩ := h.idle hl
      refine ⟨h1, h2, h3, h4, fun t ht => ?_⟩
      rcases List.mem_append.mp ht with ht | ht
      · exact h5 t ht
      · rw [List.mem_singleton.mp ht]; simp
  · exact h

theorem Nav.backTUI (h : c.Nav) : c.backTUI.Nav := by
  unfold Client.backTUI
  split
  · rename_i n rest hs
    have hrest : rest = [] := (hs ▸ h.shape : Shape (.setup n :: rest)).of_setup
    have hst := h.stats_iff
    rw [hs, hrest] at hst
    refine ⟨.base (.inl hrest), fun id hid => ?_, h.observer_lt, h.appears_lt, ?_, h.idle⟩
    · simp [hrest] at hid
    · simpa [hrest] using hst
  · exact h

theorem Nav.dismiss (h : c.Nav) : c.dismiss.Nav := by
  unfold Client.dismiss
  split
  · rename_i id rest hs
    have hb : Base rest := (hs ▸ h.shape : Shape (.lobby id :: rest)).of_lobby
    have hst := h.stats_iff
    rw [hs] at hst
    refine ⟨.base hb, fun i hi => absurd hi (hb.no_lobby i), h.observer_lt, ?_, ?_, fun hl => ?_⟩
    · intro t ht i ha
      rcases List.mem_append.mp ht with ht | ht
      · exact h.appears_lt t ht i ha
      · rw [List.mem_singleton.mp ht] at ha
        exact absurd (List.mem_of_mem_head? ha) (hb.no_lobby i)
    · simpa using hst
    · obtain ⟨h1, h2, h3, h4, h5⟩ := h.idle hl
      refine ⟨h1, h2, h3, h4, fun t ht => ?_⟩
      rcases List.mem_append.mp ht with ht | ht
      · exact h5 t ht
      · rw [List.mem_singleton.mp ht]
        exact fun ha => hb.no_stats (List.mem_of_mem_head? ha)
  · exact h

theorem Nav.presentLobby (h : c.Nav) {sender : Option Screen}
    (hs : sender = none ∨ ∃ n, sender = some (.setup n)) (bet : Option ℚ) :
    (c.presentLobby sender bet).Nav := by
  unfold Client.presentLobby Client.present
  split
  · rename_i hfront
    have hb : Base c.screens := h.shape.base_of_sender hs hfront
    have hns : c.stats.isSome = false := by
      cases hl : c.stats.isSome with
      | false => rfl
      | true => exact absurd (h.stats_iff.mpr hl) hb.no_stats
    have hlt : ∀ {i}, i < c.lobbies.length →
        i < (c.lobbies ++ [QRCodeGeneratorViewController.viewDidLoad c.currentRID bet]).length :=
      fun hi => by simp; omega
    refine ⟨.lobby _ hb, ?_, fun o ho i hi => hlt (h.observer_lt o ho i hi), ?_, ?_, fun hl => ?_⟩
    · intro i hi
      rcases List.mem_cons.mp hi with hi | hi
      · rw [Screen.lobby.inj hi]; simp
      · exact absurd hi (hb.no_lobby i)
    · intro t ht i ha
      rcases List.mem_append.mp ht with ht | ht
      · exact hlt (h.appears_lt t ht i ha)
      · rw [List.mem_singleton.mp ht] at ha
        rw [← Screen.lobby.inj (Option.some.inj ha)]; simp
    · simp [hb.no_stats, hns]
    · obtain ⟨h1, h2, h3, h4, h5⟩ := h.idle hl
      refine ⟨h1, h2, h3, h4, fun t ht => ?_⟩
      rcases List.mem_append.mp ht with ht | ht
      · exact h5 t ht
      · rw [List.mem_singleton.mp ht]; simp
  · exact h

theorem Nav.performRoomStats (h : c.Nav) (id : ℕ) : (c.performRoomStats id).Nav := by
  unfold Client.performRoomStats Client.present
  simp only
  split
  · rename_i hfront
    obtain ⟨b, hs, hb⟩ := h.shape.head_lobby hfront
    have hshape : Shape (.stats :: c.screens) := by rw [hs]; exact .stats id hb
    have hlobby : ∀ i, Screen.lobby i ∈ Screen.stats :: c.screens → i < c.lobbies.length := by
      intro i hi
      exact h.lobby_lt i (by simpa using hi)
    have happ : ∀ t ∈ c.transitions ++ [⟨some (.lobby id), some .stats⟩], ∀ i,
        t.appears = some (.lobby i) → i < c.lobbies.length := by
      intro t ht i ha
      rcases List.mem_append.mp ht with ht | ht
      · exact h.appears_lt t ht i ha
      · rw [List.mem_singleton.mp ht] at ha; cases ha
    unfold Client.setUpLabel
    split
    · refine ⟨hshape, hlobby, ?_, happ, by simp, fun hl => by simp at hl⟩
      intro o ho i hi
      rcases List.mem_append.mp ho with ho | ho
      · exact h.observer_lt o ho i hi
      · rw [List.mem_singleton.mp ho] at hi; cases hi
    · exact ⟨hshape, hlobby, h.observer_lt, happ, by simp, fun hl => by simp at hl⟩
  · exact ⟨h.shape, h.lobby_lt, h.observer_lt, h.appears_lt, h.stats_iff, h.idle⟩

theorem Nav.performToResults (h : c.Nav) (hl : c.stats.isSome = true)
    (vc : RoomStatsViewController) : (c.performToResults vc).Nav := by
  unfold Client.performToResults Client.present
  have hmem : Screen.stats ∈ c.screens := h.stats_iff.mpr hl
  split
  · rename_i hfront
    obtain ⟨id, b, hs, hb⟩ := h.shape.head_stats hfront
    refine ⟨by simp only; rw [hs]; exact .results id hb, ?_, h.observer_lt, ?_, by simp [hmem],
      fun hn => by simp at hn⟩
    · intro i hi
      exact h.lobby_lt i (by simpa using hi)
    · intro t ht i ha
      rcases List.mem_append.mp ht with ht | ht
      · exact h.appears_lt t ht i ha
      · rw [List.mem_singleton.mp ht] at ha; cases ha
  · exact ⟨h.shape, h.lobby_lt, h.observer_lt, h.appears_lt, by simp [hmem], fun hn => by
      simp at hn⟩

/-! ### Every step -/

variable {δ : Type*} [RealtimeDatabase δ]

theorem Nav.deliver (h : c.Nav) (k : ℕ) (o : Observer) (db : δ) : (c.deliver k o db).Nav := by
  obtain ⟨obs, hobs, heq⟩ := c.deliver_eq k o db
  have hc : Nav { c with observers := obs } := h.observers hobs
  rw [heq]
  split
  · rename_i id _
    unfold Client.observeEventBlock
    have hd : Nav { c with
        observers := obs
        lobbies := c.lobbies.modify id fun vc =>
          { vc with uidAndNameDict := collectNames db o.ref vc.uidAndNameDict } } :=
      ⟨hc.shape, by simpa using hc.lobby_lt, by simpa using hc.observer_lt,
        by simpa using hc.appears_lt, hc.stats_iff, hc.idle⟩
    simp only
    split
    · exact hd.performRoomStats id
    · exact hd
  · unfold Client.listener
    split
    · rename_i vc hvc
      split
      · exact hc.performToResults (by rw [hvc]; rfl) _
      · exact hc
    · exact hc
  · unfold Client.setUpLabelCompletion
    split
    · rename_i vc _ _ _ hvc _
      have hl := hc.stats_iff
      rw [hvc] at hl
      exact ⟨hc.shape, hc.lobby_lt, hc.observer_lt, hc.appears_lt, hl, fun hn => by cases hn⟩
    · exact hc

theorem Nav.snapshot (h : c.Nav) (env : Env δ) (k i : ℕ) (overlaid : Bool) :
    (c.snapshot env k i overlaid).Nav := by
  unfold Client.snapshot
  split
  · exact h.deliver k _ _
  · exact h

theorem Nav.updateTimer (h : c.Nav) (now : ℚ) : (c.updateTimer now).Nav := by
  unfold Client.updateTimer
  split
  · rename_i vc hvc
    split
    · exact h.performToResults (by rw [hvc]; rfl) _
    · exact h
  · exact h

/-- A write's completion presents from the menu or from a room setup. -/
def Sent (w : Write) : Prop := w.sender = none ∨ ∃ n, w.sender = some (.setup n)

omit [RealtimeDatabase δ] in
theorem sent_of_emits {env : Env δ} {e : ClientEvent} {w : Write} (h : Emits env c e w) :
    Sent w := by
  cases h with
  | create => exact .inr ⟨_, rfl⟩
  | join => exact .inl rfl
  | start => exact .inl rfl

theorem Nav.ack (h : c.Nav) (hw : c.Writes Sent) : c.ack.Nav := by
  rcases ack_cases c with ⟨-, hack⟩ | ⟨w, answer, rest, -, -, hack⟩ |
    ⟨w, n, rest, betAmount, ha, -, -, hack⟩
  · rw [hack]; exact h
  · rw [hack]; exact h
  · rw [hack]
    have hs : Sent w := hw.2 (w, some n) (by rw [ha]; exact List.mem_cons_self)
    exact Nav.presentLobby (c := c.admitted w.op.rid n rest) h hs betAmount

/-- A loaded stats controller makes the rest of the invariant indifferent to
checks, transactions and the delegate. -/
theorem Nav.loaded (h : c.Nav) (hl : c.stats.isSome = true) {stats : Option RoomStatsViewController}
    (hs : stats.isSome = true) (checks : List Check) (transactions : List Transaction)
    (nextTask : ℕ) (calls : List Call) :
    Nav { c with stats, checks, transactions, nextTask, calls } :=
  ⟨h.shape, h.lobby_lt, h.observer_lt, h.appears_lt, by
    have := h.stats_iff; simp only [hl, hs] at this ⊢; exact this,
    fun hn => by rw [hs] at hn; cases hn⟩

theorem Nav.isSome_of_delegate (h : c.Nav) (hd : c.delegate = true) : c.stats.isSome = true := by
  cases hl : c.stats.isSome with
  | true => rfl
  | false => rw [(h.idle hl).2.2.1] at hd; cases hd

theorem Nav.isSome_of_check (h : c.Nav) {ch : Check} (hm : ch ∈ c.checks) :
    c.stats.isSome = true := by
  cases hl : c.stats.isSome with
  | true => rfl
  | false => rw [(h.idle hl).1] at hm; cases hm

theorem Nav.isSome_of_transaction (h : c.Nav) {t : Transaction} (hm : t ∈ c.transactions) :
    c.stats.isSome = true := by
  cases hl : c.stats.isSome with
  | true => rfl
  | false => rw [(h.idle hl).2.1] at hm; cases hm

theorem Nav.didEnterBackground (h : c.Nav) (now : ℚ) : (c.didEnterBackground now).Nav := by
  unfold Client.didEnterBackground appBackgrounded
  split
  · rename_i hd
    split
    · have hl := h.isSome_of_delegate hd
      exact h.loaded hl (by simpa using hl) _ _ _ _
    · exact h
  · exact h

theorem Nav.lockcomplete (h : c.Nav) : c.lockcomplete.Nav := by
  unfold Client.lockcomplete deviceLocked
  split
  · rename_i hd
    have hl := h.isSome_of_delegate hd
    exact h.loaded hl (by simpa using hl) _ _ c.nextTask c.calls
  · exact h

theorem Nav.check (h : c.Nav) (k : ℕ) (now : ℚ) : (c.check k now).Nav := by
  unfold Client.check
  split
  · rename_i ch hch
    have hl := h.isSome_of_check (List.mem_of_getElem? hch)
    split
    · exact h
    · simp only
      split
      · exact h.loaded hl hl _ _ c.nextTask _
      · exact h.loaded hl hl _ c.transactions c.nextTask _
  · exact h

theorem Nav.runBlock (h : c.Nav) (k : ℕ) (currentData : Option Leaf) (now : ℚ) :
    (c.runBlock k currentData now).Nav := by
  unfold Client.runBlock
  by_cases hl : c.stats.isSome = true
  · exact h.loaded hl hl c.checks _ c.nextTask c.calls
  · have ht : c.transactions = [] := (h.idle (by simpa using hl)).2.1
    unfold Nav
    simp only [ht, List.modify_nil]
    exact ht ▸ h

theorem Nav.compare (h : c.Nav) (env : Env δ) (k : ℕ) : (c.compare env k).client.Nav := by
  unfold Client.compare
  split
  · rename_i ht
    have hl := h.isSome_of_transaction (List.mem_of_getElem? ht)
    split
    · exact h.loaded hl hl c.checks _ c.nextTask c.calls
    · exact h.loaded hl hl c.checks _ c.nextTask c.calls
  · exact h

theorem Nav.completion (h : c.Nav) (k : ℕ) (error : Bool) :
    (c.transactionCompletion k error).Nav := by
  unfold Client.transactionCompletion
  split
  · rename_i t ht
    have hl := h.isSome_of_transaction (List.mem_of_getElem? ht)
    split
    · exact h.loaded hl hl c.checks _ c.nextTask _
    · exact h
  · exact h

theorem Nav.step (h : c.Nav) (hw : c.Writes Sent) (env : Env δ) (e : ClientEvent) :
    (c.step env e).client.Nav := by
  cases e with
  | showSetup => exact h.showSetup
  | backTUI => exact h.backTUI
  | editBetAmount value =>
    simp only [Client.step, editBetAmount]
    split
    · exact h
    · exact h
  | createTUI timeLimit =>
    simp only [Client.step, createTUI]
    split
    · rename_i c' hc'
      split at hc'
      · cases hc'; exact h
      · cases hc'
    · exact h
  | scanQRCode text =>
    simp only [Client.step, scanQRCode]
    split
    · exact h
    · exact h
  | dismiss => exact h.dismiss
  | startRoomTUI =>
    simp only [Client.step, startRoomTUI]
    split
    · exact h
    · exact h
  | deliverWrite accepted =>
    simp only [Client.step, deliverWrite]
    split
    · split
      · exact h
      · exact h
    · exact h
  | ack => exact h.ack hw
  | appear => exact h.appear
  | snapshot k i overlaid => exact h.snapshot env k i overlaid
  | updateTimer => exact h.updateTimer env.now
  | didEnterBackground => exact h.didEnterBackground env.now
  | willEnterForeground => exact h
  | lockcomplete => exact h.lockcomplete
  | check k => exact h.check k env.now
  | runBlock k currentData => exact h.runBlock k currentData env.now
  | compare k => exact h.compare env k
  | completion k error => exact h.completion k error
  | relaunch => exact nav_launch

end Client

/-! ## Every run -/

section
variable {ι δ : Type*} [DecidableEq ι] [RealtimeDatabase δ]

/-- What every step of a client keeps, whatever the rest of the system is like,
every client of a run has. -/
theorem client_invariant (D : Deployment ι) {P : Client → Prop} (h0 : P .launch)
    (hstep : ∀ (c : Client) (env : Env δ) (e : ClientEvent), P c → P (c.step env e).client)
    (evs : List (Event ι)) (x : ι) : P ((D.run evs : System ι δ).clients x) := by
  induction evs using List.reverseRecOn generalizing x with
  | nil => exact h0
  | append_singleton evs e ih =>
    rw [run_concat]
    rcases clients_step D (D.run evs : System ι δ) e x with ⟨-, hsame⟩ | ⟨e', -, hown⟩
    · rw [hsame]
      exact ih x
    · rw [hown]
      exact hstep _ _ e' (ih x)

theorem run_nav (D : Deployment ι) (evs : List (Event ι)) (x : ι) :
    ((D.run evs : System ι δ).clients x).Nav ∧
      ((D.run evs : System ι δ).clients x).Writes Client.Sent :=
  client_invariant D (P := fun c => c.Nav ∧ c.Writes Client.Sent)
    ⟨Client.nav_launch, fun _ h => (List.not_mem_nil h).elim, fun _ h => (List.not_mem_nil h).elim⟩
    (fun _ env e h => ⟨h.1.step h.2 env e,
      h.2.step env e fun _ hw => Client.sent_of_emits hw⟩) evs x

end

end Unplug.App
