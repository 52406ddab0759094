import Unplug.App.Agreement
import Unplug.App.Tasks

/-! # Leaving and locking, as the stats controller is told

The app delegate passes two notifications on: the app went to the background, and
the phone was locked. Each sets one shared flag, which the delayed checks read. So a
check finds what the last notification before it left, whichever of them scheduled it. -/
namespace Unplug.App
open Unplug.Store Unplug.Firebase Unplug.Machine RealtimeDatabase

/-- What the system tells the application about leaving and coming back. -/
inductive Delivery
  | didEnterBackground
  | willEnterForeground
  | lockcomplete
  deriving DecidableEq

/-- The flag that a delivery leaves, if it sets one. -/
def Delivery.flag : Delivery → Option Bool
  | .didEnterBackground => some true
  | .willEnterForeground => none
  | .lockcomplete => some false

def ClientEvent.delivery : ClientEvent → Option Delivery
  | .didEnterBackground => some .didEnterBackground
  | .willEnterForeground => some .willEnterForeground
  | .lockcomplete => some .lockcomplete
  | _ => none

namespace Client
section
variable {δ : Type*} [RealtimeDatabase δ] {c : Client}

/-! ## The delegate -/

/-- A lobby on the screen was opened by an answer that set the rid. -/
def HasRoom (c : Client) : Prop := (∃ id, Screen.lobby id ∈ c.screens) → c.currentRID.isSome = true

theorem HasRoom.step (h : c.HasRoom) (env : Env δ) (e : ClientEvent) :
    (c.step env e).client.HasRoom := by
  by_cases hl : e = .relaunch
  · subst hl
    intro hx
    obtain ⟨id, hid⟩ := hx
    cases hid
  by_cases ha : e = .ack
  · subst ha
    simp only [Client.step]
    rcases ack_cases c with ⟨-, hack⟩ | ⟨w, answer, rest, -, -, hack⟩ |
      ⟨w, n, rest, bet, -, -, -, hack⟩
    · rw [hack]
      exact h
    · rw [hack]
      exact h
    · intro _
      rw [hack, currentRID_presentLobby]
      rfl
  · have hf := follows_step (c := c) env ha hl
    intro hx
    obtain ⟨id, hid⟩ := hx
    rw [hf.rid]
    exact h ⟨id, hf.screens id hid⟩

/-- A stats controller stands on a lobby. -/
theorem HasRoom.of_stats (h : c.HasRoom) (hnav : c.Nav) (hs : c.stats.isSome = true) :
    c.currentRID.isSome = true := by
  refine h ?_
  have hmem : Screen.stats ∈ c.screens := hnav.stats_iff.mpr hs
  have hshape := hnav.shape
  generalize c.screens = l at hmem hshape
  cases hshape with
  | base hb => exact absurd hmem hb.no_stats
  | lobby id hb => exact ⟨id, List.mem_cons_self⟩
  | stats id hb => exact ⟨id, List.mem_cons_of_mem _ List.mem_cons_self⟩
  | results id hb =>
    exact ⟨id, List.mem_cons_of_mem _ (List.mem_cons_of_mem _ List.mem_cons_self)⟩

/-- What a step does to the delegate and to the results. -/
inductive DelegateStep (c : Client) (e : ClientEvent) (c' : Client) : Prop
  | same : c'.delegate = c.delegate → c'.results = c.results → DelegateStep c e c'
  | loaded : c.stats = none → c'.results = c.results → DelegateStep c e c'
  | ended : c.stats.isSome = true → c'.delegate = false → c'.results.isSome = true →
      DelegateStep c e c'
  | relaunched : e = .relaunch → DelegateStep c e c'

theorem delegate_appear : c.appear.delegate = c.delegate :=
  appear_keeps Client.delegate fun _ _ _ _ _ => rfl

theorem delegateStep_performToResults {e : ClientEvent} (hs : c.stats.isSome = true)
    {obs : List Observer} (vc : RoomStatsViewController) :
    DelegateStep c e (performToResults { c with observers := obs } vc) := by
  unfold performToResults present
  simp only
  split
  · exact .ended hs rfl rfl
  · exact .same rfl rfl

theorem delegate_step (h : c.Nav) (env : Env δ) (e : ClientEvent) :
    DelegateStep c e (c.step env e).client := by
  by_cases hq : quiet e = true
  · have hf := face_step (c := c) env hq
    exact .same (congrArg Face.delegate hf) (congrArg Face.results hf)
  cases e with
  | relaunch => exact .relaunched rfl
  | showSetup =>
    simp only [step, showSetup]
    split
    · refine .same ?_ ?_
      · exact present_keeps Client.delegate (fun _ _ _ => rfl) (c := c) none (.setup c.nextSetup)
          fun _ => rfl
      · exact present_keeps Client.results (fun _ _ _ => rfl) (c := c) none (.setup c.nextSetup)
          fun _ => rfl
    · exact .same rfl rfl
  | backTUI => simp only [step, backTUI]; split <;> exact .same rfl rfl
  | dismiss => simp only [step, dismiss]; split <;> exact .same rfl rfl
  | appear => exact .same delegate_appear results_appear
  | ack =>
    simp only [step]
    rcases ack_cases c with ⟨-, hack⟩ | ⟨w, answer, rest, -, -, hack⟩ |
      ⟨w, n, rest, bet, -, -, -, hack⟩
    · rw [hack]
      exact .same rfl rfl
    · rw [hack]
      exact .same rfl rfl
    · rw [hack]
      refine .same ?_ ?_
      · exact present_keeps Client.delegate (fun _ _ _ => rfl) _ _ fun _ => rfl
      · exact present_keeps Client.results (fun _ _ _ => rfl) _ _ fun _ => rfl
  | updateTimer =>
    simp only [step, updateTimer]
    split
    · rename_i vc hvc
      split
      · exact delegateStep_performToResults (by rw [hvc]; rfl) _
      · exact .same rfl rfl
    · exact .same rfl rfl
  | snapshot k i overlaid =>
    simp only [step, snapshot]
    split
    · rename_i o db hk hv
      obtain ⟨obs, -, heq⟩ := c.deliver_eq k o db
      rw [heq]
      cases o.block with
      | lobby id =>
        simp only [observeEventBlock]
        split
        · by_cases hfront : c.screens.head? = some (.lobby id)
          · exact .loaded (h.stats_of_lobby hfront) (results_performRoomStats id)
          · refine .same ?_ (results_performRoomStats id)
            simp only [performRoomStats, present, hfront, if_false]
        · exact .same rfl rfl
      | stats =>
        simp only [listener]
        split
        · rename_i vc hvc
          split
          · have hshown : DelegateStep c (.snapshot k i overlaid) (performToResults
                { c with observers := obs } { vc with loserName := some (loserName db o.ref) }) :=
              delegateStep_performToResults (by rw [hvc]; rfl) _
            cases hshown with
            | same hd hr => exact .same hd hr
            | loaded hn hr => exact .loaded hn hr
            | ended hs hd hr => exact .ended hs hd hr
            | relaunched he => cases he
          · exact .same rfl rfl
        · exact .same rfl rfl
      | setUpLabel =>
        simp only [setUpLabelCompletion]
        split <;> exact .same rfl rfl
    · exact .same rfl rfl
  | _ => exact absurd rfl hq

/-! ## The flag -/

/-- Where the stats controller is loaded, its flag is what a delivery to the
delegate leaves, and stays otherwise. -/
theorem markFlag_eq (h : c.Nav) (hroom : c.HasRoom) (hs : c.stats.isSome = true) (env : Env δ)
    {e : ClientEvent} (hl : e ≠ .relaunch) :
    (c.step env e).client.markFlag =
      if c.delegate then ((e.delivery.bind Delivery.flag).getD c.markFlag) else c.markFlag := by
  obtain ⟨vc, hvc⟩ := Option.isSome_iff_exists.mp hs
  obtain ⟨rid, hrid⟩ := Option.isSome_iff_exists.mp (hroom.of_stats h hs)
  by_cases hb : e = .didEnterBackground
  · subst hb
    by_cases hd : c.delegate = true
    · simp [step, didEnterBackground, appBackgrounded, markFlag, ClientEvent.delivery,
        Delivery.flag, hd, hrid, hvc]
    · simp [step, didEnterBackground, hd]
  by_cases hk : e = .lockcomplete
  · subst hk
    by_cases hd : c.delegate = true
    · simp [step, lockcomplete, deviceLocked, markFlag, ClientEvent.delivery, Delivery.flag, hd,
        hvc]
    · simp [step, lockcomplete, hd]
  have hnone : e.delivery.bind Delivery.flag = none := by
    cases e with
    | didEnterBackground => exact absurd rfl hb
    | lockcomplete => exact absurd rfl hk
    | _ => rfl
  rw [hnone, Option.getD_none, ite_self]
  have hstep := stats_step h env e
  unfold markFlag
  rw [hvc] at hstep ⊢
  generalize (c.step env e).client.stats = s' at hstep ⊢
  cases hstep with
  | same => rfl
  | relaunched he => exact absurd he hl
  | observed => rfl
  | lost => rfl
  | labelled => rfl
  | ticked => rfl
  | backgrounded he => exact absurd he hb
  | locked he => exact absurd he hk

/-- A check is scheduled by a notification that sets the flag. -/
theorem checks_step (env : Env δ) {e : ClientEvent} (hl : e ≠ .relaunch)
    (hb : e ≠ .didEnterBackground) {ch : Check} (hm : ch ∈ (c.step env e).client.checks) :
    ch ∈ c.checks := by
  cases task_step (c := c) env e with
  | same hch => exact hch ▸ hm
  | backgrounded he => exact absurd he hb
  | started _ _ _ _ hch =>
    rw [hch] at hm
    exact List.mem_of_mem_eraseIdx hm
  | dropped _ _ _ _ hch =>
    rw [hch] at hm
    exact List.mem_of_mem_eraseIdx hm
  | ended _ _ _ hch => exact hch ▸ hm
  | relaunched he => exact absurd he hl

/-- A due check that fires starts a transaction where it finds the flag set. -/
theorem issued_check {env : Env δ} {k : ℕ} {ch : Check} (hk : c.checks[k]? = some ch)
    (hdue : ch.due ≤ env.now) :
    c.issued env (.check k) =
      if c.markFlag then [.runTransaction ch.task] else [.endBackgroundTask ch.task] := by
  simp [issued, hk, not_lt.mpr hdue]

end
end Client

/-! ## Runs -/

section
variable {ι δ : Type*} [DecidableEq ι] [RealtimeDatabase δ]

theorem run_hasRoom (D : Deployment ι) (evs : List (Event ι)) (x : ι) :
    ((D.run evs : System ι δ).clients x).HasRoom := by
  refine client_invariant D ?_ (fun _ env e h => h.step env e) evs x
  intro hx
  obtain ⟨id, hid⟩ := hx
  cases hid

/-- What the system tells the client `x` in a step. -/
def Event.delivery (x : ι) : Event ι → Option Delivery
  | .client c e => if c = x then e.delivery else none
  | .clock _ => none

/-- The flag that the deliveries to `x` leave, if one of them sets it. -/
def lastFlag (x : ι) (evs : List (Event ι)) : Option Bool :=
  (evs.filterMap fun e => (e.delivery x).bind Delivery.flag).getLast?

/-- What `x` is told in `post`, after `pre`, with the times. -/
def Deployment.deliveries (D : Deployment ι) (δ : Type*) [RealtimeDatabase δ] (x : ι)
    (pre post : List (Event ι)) : List (ℚ × Delivery) :=
  outputs (System.step D) (fun (s : System ι δ) e => (e.delivery x).map fun d => (s.now, d))
    (D.run pre) post

/-- From the state after `pre` on, the stats controller of `x` is the delegate. -/
def StaysDelegate (D : Deployment ι) (δ : Type*) [RealtimeDatabase δ] (x : ι)
    (pre post : List (Event ι)) : Prop :=
  ∀ mid, mid <+: post → ((D.run (pre ++ mid) : System ι δ).clients x).delegate = true

instance (D : Deployment ι) (x : ι) (pre post : List (Event ι)) :
    Decidable (StaysDelegate D δ x pre post) :=
  inferInstanceAs (Decidable (∀ mid, mid <+: post → _))

theorem lastFlag_concat (x : ι) (evs : List (Event ι)) (e : Event ι) :
    lastFlag x (evs ++ [e]) = ((e.delivery x).bind Delivery.flag).or (lastFlag x evs) := by
  unfold lastFlag
  rw [List.filterMap_append]
  cases h : (e.delivery x).bind Delivery.flag with
  | none => simp [h]
  | some b => simp [h]

/-- **The flag is what the last notification left**, and a check stands for one. -/
theorem markFlag_run {D : Deployment ι} {x : ι} {pre post : List (Event ι)}
    (hdel : StaysDelegate D δ x pre post)
    (hnone : ((D.run pre : System ι δ).clients x).checks = []) :
    ((D.run (pre ++ post) : System ι δ).clients x).markFlag =
        (lastFlag x post).getD ((D.run pre : System ι δ).clients x).markFlag ∧
      (((D.run (pre ++ post) : System ι δ).clients x).checks ≠ [] → lastFlag x post ≠ none) := by
  induction post using List.reverseRecOn with
  | nil =>
    rw [List.append_nil]
    exact ⟨rfl, fun h => absurd hnone h⟩
  | append_singleton post e ih =>
    obtain ⟨hflag, hchecks⟩ := ih fun mid hm => hdel mid (hm.trans (List.prefix_append _ _))
    have hd := hdel post (List.prefix_append _ _)
    have hd' := hdel (post ++ [e]) List.prefix_rfl
    rw [← List.append_assoc, run_concat] at hd' ⊢
    rw [lastFlag_concat]
    rcases clients_step D (D.run (pre ++ post) : System ι δ) e x with ⟨hne, hsame⟩ | ⟨e', he, hown⟩
    · have hnot : e.delivery x = none := by
        cases e with
        | clock t => rfl
        | client y e => exact if_neg fun hy => hne e (by rw [hy])
      rw [hsame, hnot]
      exact ⟨hflag, hchecks⟩
    · subst he
      have hl : e' ≠ .relaunch := by
        intro he
        rw [hown, he] at hd'
        cases hd'
      have hdelivery : (Event.client x e').delivery x = e'.delivery := if_pos rfl
      obtain ⟨hnav, -⟩ := run_nav (δ := δ) D (pre ++ post) x
      rw [hown, hdelivery, Client.markFlag_eq hnav (run_hasRoom D _ x)
        (hnav.isSome_of_delegate hd) _ hl, if_pos hd, hflag]
      refine ⟨?_, ?_⟩
      · cases e'.delivery.bind Delivery.flag <;> rfl
      · intro hch hn
        obtain ⟨hset, hlast⟩ := Option.or_eq_none_iff.mp hn
        have hb : e' ≠ .didEnterBackground := by
          intro he
          rw [he] at hset
          cases hset
        obtain ⟨ch, hm⟩ := List.exists_mem_of_ne_nil _ hch
        exact hchecks (List.ne_nil_of_mem (Client.checks_step _ hl hb hm)) hlast

/-- A due check of `x` fires in `post`, after `mid`. -/
def Fires (D : Deployment ι) (δ : Type*) [RealtimeDatabase δ] (x : ι)
    (pre mid : List (Event ι)) (k : ℕ) (ch : Check) : Prop :=
  ((D.run (pre ++ mid) : System ι δ).clients x).checks[k]? = some ch ∧
    ch.due ≤ (D.run (pre ++ mid) : System ι δ).now

instance (D : Deployment ι) (x : ι) (pre mid : List (Event ι)) (k : ℕ) (ch : Check) :
    Decidable (Fires D δ x pre mid k ch) := inferInstanceAs (Decidable (_ ∧ _))

/-- A check that fires reads what the last notification left. -/
theorem lastFlag_of_fires {D : Deployment ι} {x : ι} {pre mid : List (Event ι)}
    (hdel : StaysDelegate D δ x pre mid)
    (hnone : ((D.run pre : System ι δ).clients x).checks = []) {k : ℕ} {ch : Check}
    (hf : Fires D δ x pre mid k ch) :
    lastFlag x mid = some ((D.run (pre ++ mid) : System ι δ).clients x).markFlag := by
  obtain ⟨hm, hc⟩ := markFlag_run hdel hnone
  have hne := hc (List.ne_nil_of_mem (List.mem_of_getElem? hf.1))
  obtain ⟨b, hb⟩ := Option.ne_none_iff_exists'.mp hne
  rw [hm, hb]
  rfl

/-- Every check that fires in `post` finds the flag cleared and starts no transaction. -/
def NothingMarked (D : Deployment ι) (δ : Type*) [RealtimeDatabase δ] (x : ι)
    (pre post : List (Event ι)) : Prop :=
  ∀ mid k rest ch, post = mid ++ .client x (.check k) :: rest → Fires D δ x pre mid k ch →
    ((D.run (pre ++ mid) : System ι δ).clients x).markFlag = false ∧
      ∀ task, .runTransaction task ∉ ((D.run (pre ++ mid) : System ι δ).clients x).issued
        ((D.run (pre ++ mid) : System ι δ).env D x) (.check k)

/-- **A check is harmless exactly where the lock was told last.** While the stats
controller is the delegate, the checks find the flag cleared exactly when the last
notification before each of them was that the phone is locked. -/
theorem nothingMarked_iff_lockedLast (D : Deployment ι) {x : ι} {pre post : List (Event ι)}
    (hdel : StaysDelegate D δ x pre post)
    (hnone : ((D.run pre : System ι δ).clients x).checks = []) :
    NothingMarked D δ x pre post ↔
      ∀ mid k rest ch, post = mid ++ .client x (.check k) :: rest → Fires D δ x pre mid k ch →
        lastFlag x mid = some false := by
  have hflag : ∀ mid k rest ch, post = mid ++ .client x (.check k) :: rest →
      Fires D δ x pre mid k ch →
      lastFlag x mid = some ((D.run (pre ++ mid) : System ι δ).clients x).markFlag := by
    intro mid k rest ch heq hf
    exact lastFlag_of_fires (fun m hm => hdel m (heq ▸ hm.trans (List.prefix_append _ _))) hnone hf
  constructor
  · intro h mid k rest ch heq hf
    rw [hflag mid k rest ch heq hf, (h mid k rest ch heq hf).1]
  · intro h mid k rest ch heq hf
    have hcleared : ((D.run (pre ++ mid) : System ι δ).clients x).markFlag = false :=
      Option.some.inj ((hflag mid k rest ch heq hf).symm.trans (h mid k rest ch heq hf))
    refine ⟨hcleared, ?_⟩
    intro task hm
    have hdue : ch.due ≤ ((D.run (pre ++ mid) : System ι δ).env D x).now := hf.2
    rw [Client.issued_check hf.1 hdue, hcleared] at hm
    simp at hm

end

/-! ## Two notifications of one lock press -/

/-- Every background has a lock of its own, told at most half a second before or
after it. -/
def Paired (l : List (ℚ × Delivery)) : Prop :=
  ∃ lock : ℕ → ℕ,
    (∀ i t, l[i]? = some (t, .didEnterBackground) →
      ∃ t', l[lock i]? = some (t', .lockcomplete) ∧ t ≤ t' + 1 / 2 ∧ t' ≤ t + 1 / 2) ∧
    ∀ i j t t', l[i]? = some (t, .didEnterBackground) → l[j]? = some (t', .didEnterBackground) →
      lock i = lock j → i = j

/-- Ann presses the lock button, and the background is told before the lock. -/
def lockToldLast : List (Event Bool) :=
  [.client false .didEnterBackground, .clock (4001 / 4), .client false .lockcomplete,
    .clock 1001, .client false (.check 0)]

/-- Ann presses the lock button, and the lock is told before the background. -/
def lockToldFirst : List (Event Bool) :=
  [.client false .lockcomplete, .clock (4001 / 4), .client false .didEnterBackground,
    .clock 1001, .client false (.check 0)]

theorem nothingMarked_lockToldLast :
    NothingMarked twoPhones LeafTree false bothPlaying lockToldLast := by
  have hdel : StaysDelegate twoPhones LeafTree false bothPlaying lockToldLast := by
    decide +kernel
  have hnone : ((twoPhones.run bothPlaying : System Bool LeafTree).clients false).checks = [] := by
    decide +kernel
  refine (nothingMarked_iff_lockedLast twoPhones hdel hnone).mpr ?_
  intro mid k rest ch heq _
  have hmid : mid = [.client false .didEnterBackground, .clock (4001 / 4),
      .client false .lockcomplete, .clock 1001] := by
    rcases mid with _ | ⟨a, _ | ⟨b, _ | ⟨c, _ | ⟨d, _ | ⟨e, mid⟩⟩⟩⟩⟩ <;>
      simp_all [lockToldLast]
  rw [hmid]
  rfl

/-- The background sets the flag again that the lock before it cleared. -/
theorem lockToldFirst_marks :
    ¬ (StaysDelegate twoPhones LeafTree false bothPlaying lockToldFirst →
      Paired (twoPhones.deliveries LeafTree false bothPlaying lockToldFirst) →
      NothingMarked twoPhones LeafTree false bothPlaying lockToldFirst) := by
  intro h
  have hdeliveries : twoPhones.deliveries LeafTree false bothPlaying lockToldFirst =
      [(1000, .lockcomplete), (4001 / 4, .didEnterBackground)] := by decide +kernel
  have hpaired : Paired (twoPhones.deliveries LeafTree false bothPlaying lockToldFirst) := by
    have hsecond : ∀ i t, ([(1000, .lockcomplete), (4001 / 4, .didEnterBackground)] :
        List (ℚ × Delivery))[i]? = some (t, .didEnterBackground) → i = 1 ∧ t = 4001 / 4 := by
      intro i t hi
      rcases i with _ | _ | i <;> simp_all
    rw [hdeliveries]
    refine ⟨fun _ => 0, ?_, ?_⟩
    · intro i t hi
      obtain ⟨-, rfl⟩ := hsecond i t hi
      exact ⟨1000, rfl, by decide +kernel, by decide +kernel⟩
    · intro i j t t' hi hj _
      rw [(hsecond i t hi).1, (hsecond j t' hj).1]
  have hcheck := h (by decide +kernel) hpaired [.client false .lockcomplete, .clock (4001 / 4),
    .client false .didEnterBackground, .clock 1001] 0 [] ⟨"-", 4003 / 4, 0⟩ rfl
    (by decide +kernel)
  exact absurd hcheck.1 (by decide +kernel)

end Unplug.App
