import Unplug.App.Observing
import Unplug.App.Screens

/-! # The life of a lobby

A lobby that is presented owes its appearance, and once it has appeared an observer of its
room stays with it. So a lobby in front is always about to be attached or attached. -/
namespace Unplug.App
open Unplug.Store Unplug.Firebase Unplug.Machine RealtimeDatabase

namespace Client
section
variable {δ : Type*} [RealtimeDatabase δ] {c : Client}

/-! ## Appearances that are owed -/

/-- The screens of `c'` are those of `c`, or a new screen is in front and to appear last. -/
def Presents (c c' : Client) : Prop :=
  (c'.transitions = c.transitions ∧ c'.screens = c.screens) ∨
    ∃ t, c'.transitions = c.transitions ++ [t] ∧ t.appears = c'.screens.head? ∧
      c'.screens ≠ c.screens

theorem presents_present (sender : Option Screen) (new : Screen) (viewDidLoad : Client → Client)
    (ht : ∀ c, (viewDidLoad c).transitions = c.transitions)
    (hs : ∀ c, (viewDidLoad c).screens = c.screens) :
    Presents c (c.present sender new viewDidLoad) := by
  unfold Presents
  rw [transitions_present sender new ht, screens_present sender new hs]
  split
  · exact .inr ⟨_, rfl, rfl, List.cons_ne_self _ _⟩
  · exact .inl ⟨rfl, rfl⟩

theorem presents_performToResults (vc : RoomStatsViewController) :
    Presents c (c.performToResults vc) := by
  have h := presents_present (c := { c with
    stats := some vc
    calls := c.calls ++ [.performToResults vc.loserName vc.betAmount] }) (some .stats) .results
    (fun c => { c with results := some ⟨vc.loserName, vc.betAmount⟩, delegate := false })
    (fun _ => rfl) fun _ => rfl
  exact h

theorem presents_deliver (k : ℕ) (o : Observer) (db : δ) : Presents c (c.deliver k o db) := by
  obtain ⟨obs, -, heq⟩ := c.deliver_eq k o db
  rw [heq]
  cases o.block with
  | lobby id =>
    simp only [observeEventBlock]
    split
    · unfold Presents
      rw [transitions_performRoomStats, screens_performRoomStats]
      split
      · exact .inr ⟨_, rfl, rfl, List.cons_ne_self _ _⟩
      · exact .inl ⟨rfl, rfl⟩
    · exact .inl ⟨rfl, rfl⟩
  | stats =>
    simp only [listener]
    split
    · split
      · exact presents_performToResults _
      · exact .inl ⟨rfl, rfl⟩
    · exact .inl ⟨rfl, rfl⟩
  | setUpLabel =>
    simp only [setUpLabelCompletion]
    split <;> exact .inl ⟨rfl, rfl⟩

/-- Only the next appearance takes a transition away, and only a new screen owes one. -/
theorem presents_step (env : Env δ) {e : ClientEvent} (hl : e ≠ .relaunch) (ha : e ≠ .appear)
    (hback : e ≠ .backTUI) : Presents c (c.step env e).client := by
  by_cases hq : quiet e = true
  · exact .inl ⟨congrArg Face.transitions (face_step env hq),
      congrArg Face.screens (face_step env hq)⟩
  cases e with
  | relaunch => exact absurd rfl hl
  | appear => exact absurd rfl ha
  | backTUI => exact absurd rfl hback
  | showSetup =>
    simp only [step, showSetup]
    split
    · exact presents_present (c := c) none (.setup c.nextSetup) id (fun _ => rfl) fun _ => rfl
    · exact .inl ⟨rfl, rfl⟩
  | dismiss =>
    simp only [step, dismiss]
    split
    · rename_i hscreens
      exact .inr ⟨_, rfl, rfl, by rw [hscreens]; exact (List.cons_ne_self _ _).symm⟩
    · exact .inl ⟨rfl, rfl⟩
  | ack =>
    simp only [step]
    rcases ack_cases c with ⟨-, hack⟩ | ⟨w, answer, rest, -, -, hack⟩ |
      ⟨w, n, rest, bet, -, -, -, hack⟩
    · rw [hack]
      exact .inl ⟨rfl, rfl⟩
    · rw [hack]
      exact .inl ⟨rfl, rfl⟩
    · rw [hack]
      exact presents_present (c := c.admitted w.op.rid n rest) _ _ _ (fun _ => rfl) fun _ => rfl
  | updateTimer =>
    simp only [step, updateTimer]
    split
    · split
      · exact presents_performToResults _
      · exact .inl ⟨rfl, rfl⟩
    · exact .inl ⟨rfl, rfl⟩
  | snapshot k i overlaid =>
    simp only [step, snapshot]
    split
    · exact presents_deliver _ _ _
    · exact .inl ⟨rfl, rfl⟩
  | _ => exact absurd rfl hq

theorem transitions_backTUI : c.backTUI.transitions = c.transitions := by
  unfold backTUI
  split <;> rfl

/-- Only the next appearance takes a transition away. -/
theorem transitions_step (env : Env δ) {e : ClientEvent} (hl : e ≠ .relaunch) (ha : e ≠ .appear) :
    ∃ new, (c.step env e).client.transitions = c.transitions ++ new := by
  by_cases hback : e = .backTUI
  · subst hback
    exact ⟨[], by rw [List.append_nil]; exact transitions_backTUI⟩
  · rcases presents_step (c := c) env hl ha hback with ⟨h, -⟩ | ⟨t, h, -⟩
    · exact ⟨[], by rw [h, List.append_nil]⟩
    · exact ⟨[t], h⟩

/-! ## Attached or about to be -/

/-- The lobby `id` observes a room for as long as nothing takes the observer away. -/
def Attends (id : ℕ) (c : Client) : Prop :=
  ∃ o ∈ c.observers, o.block = .lobby id ∧ o.single = false

/-- The lobby `id` is still to appear. -/
def Appears (id : ℕ) (c : Client) : Prop := ∃ t ∈ c.transitions, t.appears = some (.lobby id)

/-- The appearance of a lobby attaches its observers to the current room. -/
theorem attends_of_appear {t : Transition} {rest : List Transition} {id : ℕ} {rid : String}
    (ht : c.transitions = t :: rest) (ha : t.appears = some (.lobby id))
    (hrid : c.currentRID = some rid) : c.appear.Attends id := by
  rcases c.appear_cases with ⟨hn, -⟩ | ⟨t', rest', obs, ht', -, heq⟩
  · rw [hn] at ht
    cases ht
  · rw [ht] at ht'
    cases ht'
    rw [heq, ha]
    refine ⟨⟨roomRef rid, .lobby id, false⟩, ?_, rfl, rfl⟩
    simp [viewWillAppear, lobbySetUpListener, hrid]

/-- Every lobby on the screen is attached or about to be. -/
def Attending (c : Client) : Prop :=
  ∀ id, Screen.lobby id ∈ c.screens → c.Appears id ∨ c.Attends id

theorem Attends.step {id : ℕ} (h : c.Attends id) (env : Env δ) {e : ClientEvent}
    (hl : e ≠ .relaunch) (hs : ∀ o ∈ c.observers, o.block = .lobby id → c.Sheltered o) :
    (c.step env e).client.Attends id := by
  obtain ⟨o, ho, hb, hsingle⟩ := h
  rcases observer_step env hl ho (fun _ => hs o ho hb) with ho' | ⟨db, -, hone⟩
  · exact ⟨o, ho', hb, hsingle⟩
  · rw [hsingle] at hone
    cases hone

theorem Appears.step {id : ℕ} (h : c.Appears id) (hrid : c.currentRID.isSome = true) (env : Env δ)
    {e : ClientEvent} (hl : e ≠ .relaunch) :
    (c.step env e).client.Appears id ∨ (c.step env e).client.Attends id := by
  obtain ⟨t, ht, ha⟩ := h
  by_cases happ : e = .appear
  · subst happ
    cases hts : c.transitions with
    | nil => rw [hts] at ht; cases ht
    | cons t' rest =>
      rw [hts] at ht
      rcases List.mem_cons.mp ht with rfl | ht
      · obtain ⟨rid, hrid⟩ := Option.isSome_iff_exists.mp hrid
        exact .inr (attends_of_appear hts ha hrid)
      · exact .inl ⟨t, by simp only [Client.step, transitions_appear hts]; exact ht, ha⟩
  · obtain ⟨new, hnew⟩ := transitions_step (c := c) env hl happ
    exact .inl ⟨t, by rw [hnew]; exact List.mem_append_left _ ht, ha⟩

/-- A new lobby is about to be attached. -/
theorem appears_presentLobby {sender : Option Screen} (bet : Option ℚ)
    (hfront : c.screens.head? = sender) : (c.presentLobby sender bet).Appears c.lobbies.length := by
  refine ⟨⟨sender, some (.lobby c.lobbies.length)⟩, ?_, rfl⟩
  rw [presentLobby, present, if_pos hfront]
  exact List.mem_append_right _ List.mem_cons_self

theorem Attending.step (h : c.Attending) (hroom : c.HasRoom) (env : Env δ) (e : ClientEvent)
    (hs : ∀ id, ∀ o ∈ c.observers, o.block = .lobby id → c.Sheltered o) :
    (c.step env e).client.Attending := by
  by_cases hl : e = .relaunch
  · subst hl
    exact fun id hid => (List.not_mem_nil hid).elim
  intro id hid
  by_cases hold : Screen.lobby id ∈ c.screens
  · rcases h id hold with ha | ha
    · exact ha.step (hroom ⟨id, hold⟩) env hl
    · exact .inr (ha.step env hl (hs id))
  by_cases hack : e = .ack
  · -- only an answer presents a lobby
    subst hack
    simp only [Client.step] at hid ⊢
    rcases ack_cases c with ⟨-, heq⟩ | ⟨w, answer, rest, -, -, heq⟩ |
      ⟨w, n, rest, bet, -, -, -, heq⟩
    · rw [heq] at hid
      exact absurd hid hold
    · rw [heq] at hid
      exact absurd hid hold
    · rw [heq] at hid ⊢
      rw [screens_presentLobby] at hid
      split at hid
      · rename_i hfront
        rcases List.mem_cons.mp hid with hid | hid
        · cases hid
          exact .inl (appears_presentLobby bet hfront)
        · exact absurd hid hold
      · exact absurd hid hold
  · exact absurd ((follows_step env hack hl).screens id hid) hold

end
end Client

end Unplug.App
