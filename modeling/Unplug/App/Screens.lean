import Unplug.App.StatsLife

/-! # What a step does to the screens

`ScreensStep` is all that a step can do to the stack of presented controllers. A lobby
in front gives way to the stats controller or is dismissed, the stats controller gives
way to the results, and nothing but a new process takes the results away. -/
namespace Unplug.App
open Unplug.Store Unplug.Firebase Unplug.Machine RealtimeDatabase

namespace Client
section
variable {δ : Type*} [RealtimeDatabase δ] {c : Client}

/-- What a step can make of the screens. -/
inductive ScreensStep (env : Env δ) (c : Client) (e : ClientEvent) : List Screen → Prop
  | same : ScreensStep env c e c.screens
  | relaunched : e = .relaunch → ScreensStep env c e []
  | setup {n} : e = .showSetup → c.screens = [] → ScreensStep env c e [.setup n]
  | back {n rest} : e = .backTUI → c.screens = .setup n :: rest → ScreensStep env c e rest
  | dismissed {id rest} : e = .dismiss → c.screens = .lobby id :: rest → ScreensStep env c e rest
  | lobby {id} : e = .ack → Base c.screens → ScreensStep env c e (.lobby id :: c.screens)
  | stats {id o db} : Delivers env c e o db → o.block = .lobby id → started db o.ref = true →
      c.screens.head? = some (.lobby id) → ScreensStep env c e (.stats :: c.screens)
  | results : c.screens.head? = some .stats → ScreensStep env c e (.results :: c.screens)

theorem screens_setUpLabel : c.setUpLabel.screens = c.screens :=
  setUpLabel_keeps Client.screens fun _ _ => rfl

theorem screens_appear : c.appear.screens = c.screens :=
  appear_keeps Client.screens fun _ _ _ _ _ => rfl

theorem screens_present (sender : Option Screen) (new : Screen) {viewDidLoad : Client → Client}
    (h : ∀ c, (viewDidLoad c).screens = c.screens) :
    (c.present sender new viewDidLoad).screens =
      if c.screens.head? = sender then new :: c.screens else c.screens := by
  unfold present
  split
  · exact h _
  · rfl

theorem screens_performRoomStats (id : ℕ) :
    (c.performRoomStats id).screens =
      if c.screens.head? = some (.lobby id) then .stats :: c.screens else c.screens :=
  screens_present _ _ fun _ => screens_setUpLabel

theorem screens_performToResults (vc : RoomStatsViewController) :
    (c.performToResults vc).screens =
      if c.screens.head? = some .stats then .results :: c.screens else c.screens :=
  screens_present _ _ fun _ => rfl

theorem screens_presentLobby (sender : Option Screen) (bet : Option ℚ) :
    (c.presentLobby sender bet).screens =
      if c.screens.head? = sender then .lobby c.lobbies.length :: c.screens else c.screens :=
  screens_present _ _ fun _ => rfl

theorem screens_showSetup :
    c.showSetup.screens = if c.screens = [] then [.setup c.nextSetup] else c.screens := by
  unfold showSetup present
  split
  · rename_i hnil
    rw [if_pos (by rw [hnil]; rfl)]
    simp [hnil]
  · rfl

/-- A delivery may open the stats controller above its lobby, or the results above the
stats controller. -/
theorem screens_deliver (k : ℕ) (o : Observer) (db : δ) :
    (c.deliver k o db).screens = match o.block with
      | .lobby id => if started db o.ref = true ∧ c.screens.head? = some (.lobby id) then
          .stats :: c.screens else c.screens
      | .stats => if c.stats.isSome = true ∧ loserName db o.ref ≠ "" ∧
          c.screens.head? = some .stats then .results :: c.screens else c.screens
      | .setUpLabel => c.screens := by
  obtain ⟨obs, -, heq⟩ := c.deliver_eq k o db
  rw [heq]
  cases o.block with
  | lobby id =>
    simp only [observeEventBlock]
    cases started db o.ref with
    | true =>
      simp only [if_true, true_and]
      exact screens_performRoomStats id
    | false => rfl
  | stats =>
    simp only [listener]
    cases hvc : c.stats with
    | none => simp
    | some vc =>
      by_cases hn : loserName db o.ref = ""
      · simp [hn]
      · simp only [hn, ne_eq, not_false_iff, if_true, Option.isSome_some, true_and]
        exact screens_performToResults _
  | setUpLabel =>
    simp only [setUpLabelCompletion]
    split <;> rfl

/-- **A step of the screens.** -/
theorem screens_step (hnav : c.Nav) (hsent : c.Writes Sent) (env : Env δ) (e : ClientEvent) :
    ScreensStep env c e (c.step env e).client.screens := by
  have hsame : ∀ {l}, l = c.screens → ScreensStep env c e l := by
    intro l h
    rw [h]
    exact .same
  by_cases hq : quiet e = true
  · exact hsame (congrArg Face.screens (face_step env hq))
  cases e with
  | relaunch => exact .relaunched rfl
  | showSetup =>
    simp only [step, screens_showSetup]
    split
    · rename_i hnil
      exact .setup rfl hnil
    · exact .same
  | backTUI =>
    simp only [step, backTUI]
    split
    · rename_i hs
      exact .back rfl hs
    · exact .same
  | dismiss =>
    simp only [step, dismiss]
    split
    · rename_i hs
      exact .dismissed rfl hs
    · exact .same
  | appear => exact hsame screens_appear
  | ack =>
    simp only [step]
    rcases ack_cases c with ⟨-, hack⟩ | ⟨w, answer, rest, -, -, hack⟩ |
      ⟨w, n, rest, bet, hacks, -, -, hack⟩
    · exact hsame (by rw [hack])
    · exact hsame (by rw [hack]; rfl)
    · have hw : Sent w := hsent.2 (w, some n) (by rw [hacks]; exact List.mem_cons_self)
      rw [hack, screens_presentLobby]
      split
      · rename_i hfront
        exact .lobby rfl (hnav.shape.base_of_sender hw hfront)
      · exact .same
  | updateTimer =>
    simp only [step, updateTimer]
    split
    · split
      · rw [screens_performToResults]
        split
        · rename_i hfront
          exact .results hfront
        · exact .same
      · exact .same
    · exact .same
  | snapshot k i overlaid =>
    simp only [step, snapshot]
    split
    · rename_i o db hk hv
      simp only [screens_deliver]
      split
      · rename_i id hb
        split
        · rename_i hst
          exact .stats ⟨k, i, overlaid, rfl, hk, hv⟩ hb hst.1 hst.2
        · exact .same
      · split
        · rename_i hend
          exact .results hend.2.2
        · exact .same
      · exact .same
    · exact .same
  | _ => exact absurd rfl hq

/-! ## The screen in front -/

/-- A lobby or a game in front stays there, unless the lobby is dismissed, it opens the
stats controller, or that opens the results. -/
theorem front_step (hnav : c.Nav) (hsent : c.Writes Sent) (env : Env δ) {e : ClientEvent}
    (hl : e ≠ .relaunch) {s : Screen} (hfront : c.screens.head? = some s)
    (hsetup : ∀ n, s ≠ .setup n) (hd : ∀ id, s = .lobby id → e ≠ .dismiss) :
    (c.step env e).client.screens.head? = some s ∨
      (∃ id, s = .lobby id ∧ (c.step env e).client.screens.head? = some .stats) ∨
      (s = .stats ∧ (c.step env e).client.screens.head? = some .results) := by
  have hbase : ¬ Base c.screens := by
    rintro (hb | ⟨n, hb⟩)
    · rw [hb] at hfront
      cases hfront
    · rw [hb] at hfront
      cases hfront
      exact hsetup n rfl
  have hs := screens_step hnav hsent env e
  generalize (c.step env e).client.screens = screens' at hs
  cases hs with
  | same => exact .inl hfront
  | relaunched he => exact absurd he hl
  | setup _ hnil => exact absurd (.inl hnil) hbase
  | back _ hs =>
    rw [hs] at hfront
    cases hfront
    exact absurd rfl (hsetup _)
  | dismissed he hs =>
    rw [hs] at hfront
    cases hfront
    exact absurd he (hd _ rfl)
  | lobby _ hb => exact absurd hb hbase
  | @stats id _ _ _ _ _ hlobby =>
    rw [hlobby] at hfront
    cases hfront
    exact .inr (.inl ⟨id, rfl, rfl⟩)
  | results hstats =>
    rw [hstats] at hfront
    cases hfront
    exact .inr (.inr ⟨rfl, rfl⟩)

/-- Nothing but a new process takes the results away. -/
theorem results_stay (hnav : c.Nav) (hsent : c.Writes Sent) (env : Env δ) {e : ClientEvent}
    (hl : e ≠ .relaunch) (hfront : c.screens.head? = some .results) :
    (c.step env e).client.screens.head? = some .results := by
  rcases front_step hnav hsent env hl hfront (by simp) (by simp) with h | ⟨id, h, -⟩ | ⟨h, -⟩
  · exact h
  · cases h
  · cases h

/-- A loser that the listener of a game in front is shown opens the results. -/
theorem results_of_named (hnav : c.Nav) {env : Env δ} {e : ClientEvent} {o : Observer} {db : δ}
    (hfront : c.screens.head? = some .stats) (hd : Delivers env c e o db) (hb : o.block = .stats)
    (hn : loserName db o.ref ≠ "") : (c.step env e).client.screens.head? = some .results := by
  obtain ⟨k, i, overlaid, rfl, hk, hv⟩ := hd
  have hs : c.stats.isSome = true := hnav.stats_iff.mp (List.mem_of_mem_head? hfront)
  simp only [step, snapshot, hk, hv, screens_deliver, hb, hs, ne_eq, hn, not_false_eq_true, hfront,
    and_self, if_true, List.head?_cons]

/-- The stats controller stays in front until the results. -/
theorem stats_stay (hnav : c.Nav) (hsent : c.Writes Sent) (env : Env δ) {e : ClientEvent}
    (hl : e ≠ .relaunch) (hfront : c.screens.head? = some .stats) :
    (c.step env e).client.screens.head? = some .stats ∨
      (c.step env e).client.screens.head? = some .results := by
  rcases front_step hnav hsent env hl hfront (by simp) (by simp) with h | ⟨id, h, -⟩ | ⟨-, h⟩
  · exact .inl h
  · cases h
  · exact .inr h

/-- A lobby stays in front until it is dismissed or opens the stats controller. -/
theorem lobby_stay (hnav : c.Nav) (hsent : c.Writes Sent) (env : Env δ) {e : ClientEvent}
    (hl : e ≠ .relaunch) (hd : e ≠ .dismiss) {id : ℕ}
    (hfront : c.screens.head? = some (.lobby id)) :
    (c.step env e).client.screens.head? = some (.lobby id) ∨
      (c.step env e).client.screens.head? = some .stats := by
  rcases front_step hnav hsent env hl hfront (by simp) (fun _ _ => hd) with h | ⟨id, -, h⟩ | ⟨h, -⟩
  · exact .inl h
  · exact .inr h
  · cases h

end
end Client

end Unplug.App
