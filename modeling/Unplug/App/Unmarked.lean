import Unplug.App.Spread

/-! # Who leaves is not marked

A check that a game has scheduled dies with the app, and `appTerminated` leaves a time that
nobody reads. The lobby has no check to begin with. Until its user is let into a room again
the phone starts no mark, so a player who kills the app before its check is due has no loss. -/
namespace Unplug.App
open Unplug.Store Unplug.Firebase Unplug.Machine Unplug.Room RealtimeDatabase

namespace Client
section
variable {δ : Type*} [RealtimeDatabase δ] {c : Client}

/-- Without a lobby on its screens a client comes to one by an answer only. -/
theorem base_step (h : Base c.screens) (hnav : c.Nav) (hsent : c.Writes Sent) (env : Env δ)
    {e : ClientEvent} (ha : e = .ack → c.admits = none) :
    Base (c.step env e).client.screens := by
  by_cases hack : e = .ack
  · subst hack
    simp only [step]
    rcases ack_cases c with ⟨-, heq⟩ | ⟨w, answer, rest, -, -, heq⟩ |
      ⟨w, n, rest, bet, -, -, hadmit, -⟩
    · rw [heq]
      exact h
    · rw [heq]
      exact h
    · rw [ha rfl] at hadmit
      cases hadmit
  have hfront : ∀ {s}, c.screens.head? = some s → ∃ n, s = .setup n := by
    intro s hs
    rcases h with hnil | ⟨n, hone⟩
    · rw [hnil] at hs
      cases hs
    · rw [hone] at hs
      cases hs
      exact ⟨n, rfl⟩
  have hscreens := screens_step hnav hsent env e
  generalize (c.step env e).client.screens = screens at hscreens ⊢
  cases hscreens with
  | same => exact h
  | relaunched _ => exact .inl rfl
  | setup _ _ => exact .inr ⟨_, rfl⟩
  | back _ hs => exact .inl (Shape.of_setup (hs ▸ hnav.shape))
  | dismissed _ hs =>
    obtain ⟨n, hn⟩ := hfront (by rw [hs]; rfl)
    cases hn
  | lobby he _ => exact absurd he hack
  | stats _ _ _ hs =>
    obtain ⟨n, hn⟩ := hfront hs
    cases hn
  | results hs =>
    obtain ⟨n, hn⟩ := hfront hs
    cases hn

/-- A client without a game has no transaction under way. -/
theorem transactions_of_base (h : Base c.screens) (hnav : c.Nav) : c.transactions = [] := by
  have hs : c.stats.isSome = false :=
    Bool.eq_false_of_not_eq_true fun hs => h.no_stats (hnav.stats_iff.mpr hs)
  exact (hnav.idle hs).2.1

end
end Client

section
variable {ι δ : Type*} [DecidableEq ι] [RealtimeDatabase δ] {D : Deployment ι}
  {evs : List (Event ι)} {x : ι} {rid : String}

/-- `x` is let into no room. -/
def StaysOut (x : ι) (s : System ι δ) (e : Event ι) : Prop :=
  e = .client x .ack → (s.clients x).admits = none

instance (x : ι) (s : System ι δ) (e : Event ι) : Decidable (StaysOut x s e) :=
  inferInstanceAs (Decidable (_ → _))

/-- A mark comes from a transaction of its own player. -/
theorem transactions_of_mark (hscans : D.Along (δ := δ) ScansRooms evs) {e : Event ι}
    {timestamp : ℚ}
    (hop : (D.run evs : System ι δ).applied D e = some (.mark rid (D.user x).uid timestamp)) :
    ((D.run evs : System ι δ).clients x).transactions ≠ [] := by
  cases e with
  | clock t => cases hop
  | client y e =>
    rcases applied_cases D hop with ⟨-, w, rest, ho, hw⟩ | ⟨k, t, value, now, -, ht, -, -, -, hw⟩
    · obtain ⟨-, hown⟩ := (run_keys D (hscans.mono fun _ _ h => ScansRooms.scansKeys h) y).2.1 w
        (by rw [ho]; exact List.mem_cons_self)
      rw [← hw] at hown
      exact hown.elim
    · obtain ⟨-, huid, -⟩ := RoomOp.mark.inj hw
      obtain rfl := D.uid_injective huid
      intro hnil
      rw [hnil] at ht
      cases ht

/-- Only a mark of its own makes a player lose. -/
theorem hasLost_step (hscans : D.Along (δ := δ) ScansRooms evs) {e : Event ι}
    (hnone : ((D.run evs : System ι δ).clients x).transactions = [])
    (h : HasLost rid (D.user x).uid ((D.run evs : System ι δ).step D e).db) :
    HasLost rid (D.user x).uid (D.run evs : System ι δ).db := by
  cases hop : (D.run evs : System ι δ).applied D e with
  | none => rwa [(db_step_none D hop).1] at h
  | some op =>
    obtain ⟨r, hr, hlost⟩ := h
    rw [(db_step_some D hop).1, recordsAt_apply (history_dated hscans).1 (applied_key hscans hop)]
      at hr
    rcases lost_of_apply hr hlost with hbefore | ⟨timestamp, rfl⟩
    · exact hbefore
    · exact absurd hnone (transactions_of_mark hscans hop)

/-- The event takes `x` out of its lobby and its game: its app is opened anew, when no mark
of it is under way, or its user dismisses the lobby in front. -/
def LeavesRoom (x : ι) (s : System ι δ) (e : Event ι) : Prop :=
  (e = .client x .relaunch ∧ (s.clients x).transactions = []) ∨
    e = .client x .dismiss ∧ ∃ id, (s.clients x).screens.head? = some (.lobby id)

/-- Such an event leaves no lobby and no game on the screens, and writes nothing. -/
theorem base_of_leavesRoom {e : Event ι} (h : LeavesRoom x (D.run evs : System ι δ) e) :
    Base (((D.run evs : System ι δ).step D e).clients x).screens ∧
      (D.run evs : System ι δ).applied D e = none := by
  rcases h with ⟨rfl, -⟩ | ⟨rfl, id, hfront⟩
  · rw [step_client_self]
    exact ⟨.inl rfl, rfl⟩
  · obtain ⟨rest, hs, hb⟩ := (run_nav (δ := δ) D evs x).1.shape.head_lobby hfront
    rw [step_client_self]
    refine ⟨?_, rfl⟩
    simp only [Client.step, Client.dismiss, hs]
    exact hb

/-- A player without a lobby or a game, whose phone is let into no room, is not marked. -/
theorem unmarked_of_base {pre post : List (Event ι)}
    (hscans : D.Along (δ := δ) ScansRooms (pre ++ post))
    (hout : Along (System.step D) (StaysOut x) (D.run pre : System ι δ) post)
    (hbase : Base ((D.run pre : System ι δ).clients x).screens)
    (h : ¬ HasLost rid (D.user x).uid (D.run pre : System ι δ).db) :
    Base ((D.run (pre ++ post) : System ι δ).clients x).screens ∧
      ¬ HasLost rid (D.user x).uid (D.run (pre ++ post) : System ι δ).db := by
  induction post using List.reverseRecOn with
  | nil => exact ⟨by rwa [List.append_nil], by rwa [List.append_nil]⟩
  | append_singleton post e ih =>
    rw [← List.append_assoc] at hscans ⊢
    obtain ⟨hscans', -⟩ := Along.concat.mp hscans
    obtain ⟨hout', he⟩ := Along.concat.mp hout
    obtain ⟨hlater, hunmarked⟩ := ih hscans' hout'
    rw [← run_append] at he
    obtain ⟨hnav, hsent⟩ := run_nav (δ := δ) D (pre ++ post) x
    rw [run_concat]
    refine ⟨?_, fun hlost => hunmarked (hasLost_step hscans'
      (Client.transactions_of_base hlater hnav) hlost)⟩
    rcases clients_step D (D.run (pre ++ post) : System ι δ) e x with
      ⟨-, hsame⟩ | ⟨e', rfl, hown⟩
    · rw [hsame]
      exact hlater
    · rw [hown]
      exact Client.base_step hlater hnav hsent _ fun hack => he (by rw [hack])

/-- **Who leaves is not marked.** A player without a loss whose app is killed before it
starts a mark, and opened anew, or who dismisses the lobby, has none as long as it is let
into no room, whatever the others do and whatever checks the dead app had scheduled. -/
theorem left_unmarked {pre post : List (Event ι)} {e : Event ι}
    (hscans : D.Along (δ := δ) ScansRooms (pre ++ e :: post))
    (hleaves : LeavesRoom x (D.run pre : System ι δ) e)
    (hout : Along (System.step D) (StaysOut x) (D.run (pre ++ [e]) : System ι δ) post)
    (h : ¬ HasLost rid (D.user x).uid (D.run pre : System ι δ).db) :
    ¬ HasLost rid (D.user x).uid (D.run (pre ++ e :: post) : System ι δ).db := by
  obtain ⟨hbase, hnone⟩ := base_of_leavesRoom hleaves
  rw [show pre ++ e :: post = pre ++ [e] ++ post by simp] at hscans ⊢
  refine (unmarked_of_base hscans hout ?_ ?_).2
  · rw [run_concat]
    exact hbase
  · rw [run_concat, (db_step_none D hnone).1]
    exact h

end

/-- Ann leaves the game, kills the app before the check is due, and opens it again. -/
theorem left_unmarked_ann :
    ¬ HasLost "-" "uidA" (twoPhones.run (bothPlaying ++ [.client false .didEnterBackground] ++
      .client false .relaunch :: [.clock 1001, .client false (.check 0),
        .client false (.runBlock 0 (some (.num 0))), .client false (.compare 0)]) :
      System Bool LeafTree).db := by
  refine left_unmarked (D := twoPhones) (x := false) ?_ (.inl ⟨rfl, ?_⟩) ?_ ?_
  · decide +kernel
  · decide +kernel
  · decide +kernel
  · decide +kernel

end Unplug.App
