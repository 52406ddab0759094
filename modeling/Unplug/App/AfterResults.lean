import Unplug.App.Notices

/-! # After the results

The results screen clears the app delegate's delegate, so no notification reaches the
stats controller any more: its flag stays, and no check is added. The checks scheduled
before still fire, and with the flag set the first of them starts a mark transaction. -/
namespace Unplug.App
open Unplug.Store Unplug.Firebase Unplug.Machine RealtimeDatabase

namespace Client

/-- The stats controller is loaded and no longer the delegate. -/
structure Over (c : Client) : Prop where
  stats : c.stats.isSome = true
  delegate : c.delegate = false

/-- What can still come of the checks and transactions after the results. -/
structure Quiet (tasks : List ℕ) (c : Client) : Prop where
  harmless : c.markFlag = false ∨ c.checks = []
  transactions : ∀ t ∈ c.transactions, t.task ∈ tasks

theorem Quiet.not_started {c : Client} {tasks : List ℕ} (hq : c.Quiet tasks) {k : ℕ}
    {ch : Check} (hk : c.checks[k]? = some ch) (hf : c.markFlag = true) : False := by
  rcases hq.harmless with hh | hh
  · rw [hh] at hf
    cases hf
  · rw [hh] at hk
    cases hk

section
variable {δ : Type*} [RealtimeDatabase δ] {c : Client}

theorem stats_isSome_step (h : c.Nav) (hs : c.stats.isSome = true) (env : Env δ) {e : ClientEvent}
    (hl : e ≠ .relaunch) : (c.step env e).client.stats.isSome = true := by
  obtain ⟨vc, hvc⟩ := Option.isSome_iff_exists.mp hs
  have hstep := stats_step h env e
  rw [hvc] at hstep
  generalize (c.step env e).client.stats = s' at hstep ⊢
  cases hstep with
  | relaunched he => exact absurd he hl
  | _ => rfl

/-- The step that shows the results is the one that ends the game. -/
theorem over_of_results (h : c.Nav) (env : Env δ) {e : ClientEvent} (hn : c.results = none)
    (hr : (c.step env e).client.results.isSome = true) :
    (c.step env e).client.Over ∧ c.stats.isSome = true := by
  have hl : e ≠ .relaunch := by
    intro he
    rw [he] at hr
    cases hr
  cases delegate_step h env e with
  | same _ hres => rw [hres, hn] at hr; cases hr
  | loaded _ hres => rw [hres, hn] at hr; cases hr
  | ended hs hd _ => exact ⟨⟨stats_isSome_step h hs env hl, hd⟩, hs⟩
  | relaunched he => exact absurd he hl

theorem Over.step (hover : c.Over) (h : c.Nav) (env : Env δ) {e : ClientEvent}
    (hl : e ≠ .relaunch) : (c.step env e).client.Over := by
  refine ⟨stats_isSome_step h hover.stats env hl, ?_⟩
  cases delegate_step h env e with
  | same hd => rw [hd, hover.delegate]
  | loaded hn => have hs := hover.stats; rw [hn] at hs; cases hs
  | ended _ hd => exact hd
  | relaunched he => exact absurd he hl

/-- Nothing reaches the flag of a stats controller that is not the delegate. -/
theorem Over.markFlag_step (hover : c.Over) (h : c.Nav) (hroom : c.HasRoom) (env : Env δ)
    {e : ClientEvent} (hl : e ≠ .relaunch) : (c.step env e).client.markFlag = c.markFlag := by
  rw [markFlag_eq h hroom hover.stats env hl, hover.delegate]
  rfl

/-- Without the delegate a step keeps a harmless flag harmless and starts nothing. -/
theorem Quiet.step {tasks : List ℕ} (hq : c.Quiet tasks) (hover : c.Over) (h : c.Nav)
    (hroom : c.HasRoom) (env : Env δ) {e : ClientEvent} (hl : e ≠ .relaunch) :
    (c.step env e).client.Quiet tasks := by
  have hflag := hover.markFlag_step h hroom env hl
  have htask : ∀ {l : List Transaction}, (∀ t ∈ l, t.task ∈ tasks) ↔
      ∀ task ∈ l.map (·.task), task ∈ tasks := by
    intro l
    simp
  have hharm : (∀ ch ∈ (c.step env e).client.checks, ch ∈ c.checks) →
      (c.step env e).client.markFlag = false ∨ (c.step env e).client.checks = [] := by
    intro hsub
    rcases hq.harmless with hh | hh
    · exact .inl (hflag.trans hh)
    · refine .inr (List.eq_nil_iff_forall_not_mem.mpr fun ch hm => ?_)
      have := hsub ch hm
      rw [hh] at this
      cases this
  cases task_step (c := c) env e with
  | same hch htr =>
    refine ⟨hharm fun ch hm => hch ▸ hm, htask.mpr ?_⟩
    rw [htr]
    exact htask.mp hq.transactions
  | backgrounded _ hd => rw [hover.delegate] at hd; cases hd
  | started _ hk _ hf => exact (hq.not_started hk hf).elim
  | dropped _ _ _ _ hch htr =>
    refine ⟨hharm fun ch hm => ?_, ?_⟩
    · rw [hch] at hm
      exact List.mem_of_mem_eraseIdx hm
    · rw [htr]
      exact hq.transactions
  | ended _ _ _ hch htr =>
    refine ⟨hharm fun ch hm => hch ▸ hm, ?_⟩
    rw [htr]
    exact fun t hm => hq.transactions t (List.mem_of_mem_eraseIdx hm)
  | relaunched he => exact absurd he hl

/-- The step starts no mark transaction, and posts the notification only as the end
of a transaction of `tasks`. -/
structure NoLoss (tasks : List ℕ) (env : Env δ) (c : Client) (e : ClientEvent) : Prop where
  starts : ∀ task, Call.runTransaction task ∉ c.issued env e
  posts : ∀ bet, Call.postYouLost bet ∈ c.issued env e → ∃ k error t,
    e = .completion k error ∧ c.transactions[k]? = some t ∧ t.task ∈ tasks

theorem Quiet.noLoss {tasks : List ℕ} (hq : c.Quiet tasks) (hover : c.Over) (env : Env δ)
    {e : ClientEvent} (hl : e ≠ .relaunch) : NoLoss tasks env c e := by
  cases task_step (c := c) env e with
  | same _ _ hcalls =>
    refine ⟨?_, ?_⟩
    · intro task hm
      cases hcalls _ hm
    · intro bet hm
      cases hcalls _ hm
  | backgrounded _ hd => rw [hover.delegate] at hd; cases hd
  | started _ hk _ hf => exact (hq.not_started hk hf).elim
  | dropped _ _ _ _ _ _ hcalls =>
    refine ⟨?_, ?_⟩
    · intro task hm
      rw [hcalls] at hm
      simp at hm
    · intro bet hm
      rw [hcalls] at hm
      simp at hm
  | @ended k t error he hk hend _ _ hcalls =>
    refine ⟨?_, ?_⟩
    · intro task hm
      rw [hcalls] at hm
      simp at hm
    · intro bet _
      exact ⟨k, error, t, he, hk, hq.transactions t (List.mem_of_getElem? hk)⟩
  | relaunched he => exact absurd he hl

/-- The step that shows the results reads the flag and the checks only. -/
theorem same_of_results (h : c.Nav) (hroom : c.HasRoom) (env : Env δ) {e : ClientEvent}
    (hn : c.results = none) (hr : (c.step env e).client.results.isSome = true) :
    (c.step env e).client.markFlag = c.markFlag ∧ (c.step env e).client.checks = c.checks := by
  have hl : e ≠ .relaunch := by
    intro he
    rw [he] at hr
    cases hr
  have hq : quiet e ≠ true := by
    intro hq
    have hres : (c.step env e).client.results = c.results :=
      congrArg Face.results (face_step env hq)
    rw [hres, hn] at hr
    cases hr
  refine ⟨?_, ?_⟩
  · rw [markFlag_eq h hroom (over_of_results h env hn hr).2 env hl]
    have hnone : e.delivery = none := by
      cases e with
      | didEnterBackground | willEnterForeground | lockcomplete => exact absurd rfl hq
      | _ => rfl
    rw [hnone]
    exact ite_self _
  · cases task_step (c := c) env e with
    | same hch => exact hch
    | backgrounded he => exact absurd (he ▸ rfl) hq
    | started he => exact absurd (he ▸ rfl) hq
    | dropped he => exact absurd (he ▸ rfl) hq
    | ended _ _ _ hch => exact hch
    | relaunched he => exact absurd he hl

end
end Client

/-! ## Runs -/

section
variable {ι δ : Type*} [DecidableEq ι] [RealtimeDatabase δ]

/-- In `post`, after `pre`, no step of `x` starts a mark transaction, and none posts
the notification for a transaction that was not in flight before. -/
def NoLaterLoss (D : Deployment ι) (δ : Type*) [RealtimeDatabase δ] (x : ι)
    (pre post : List (Event ι)) : Prop :=
  ∀ mid e rest, post = mid ++ .client x e :: rest →
    Client.NoLoss (((D.run pre : System ι δ).clients x).transactions.map (·.task))
      ((D.run (pre ++ mid) : System ι δ).env D x) ((D.run (pre ++ mid) : System ι δ).clients x) e

/-- What is harmless when the results are loaded stays so until a relaunch. -/
theorem run_quiet (D : Deployment ι) {x : ι} {tasks : List ℕ} {pre post : List (Event ι)}
    (hl : Event.client x .relaunch ∉ post)
    (hover : ((D.run pre : System ι δ).clients x).Over)
    (hq : ((D.run pre : System ι δ).clients x).Quiet tasks) :
    ((D.run (pre ++ post) : System ι δ).clients x).Over ∧
      ((D.run (pre ++ post) : System ι δ).clients x).Quiet tasks := by
  induction post using List.reverseRecOn with
  | nil => rw [List.append_nil]; exact ⟨hover, hq⟩
  | append_singleton post e ih =>
    have hpost : Event.client x .relaunch ∉ post := fun hm => hl (List.mem_append_left _ hm)
    obtain ⟨hover', hq'⟩ := ih hpost
    rw [← List.append_assoc, run_concat]
    rcases clients_step D (D.run (pre ++ post) : System ι δ) e x with ⟨-, hsame⟩ | ⟨e', he, hown⟩
    · rw [hsame]
      exact ⟨hover', hq'⟩
    · subst he
      have hne : e' ≠ .relaunch := by
        intro he
        exact hl (by simp [he])
      obtain ⟨hnav, -⟩ := run_nav (δ := δ) D (pre ++ post) x
      rw [hown]
      exact ⟨hover'.step hnav _ hne, hq'.step hover' hnav (run_hasRoom D _ x) _ hne⟩

/-- **No loss after the results, exactly where no check can still cause one.** Once the
results are loaded, no later step of the process starts a mark transaction or posts the
notification for a new one, exactly if the flag was cleared or no check was scheduled. -/
theorem no_later_loss_iff (D : Deployment ι) {x : ι} {pre : List (Event ι)} {e : Event ι}
    (hload : LoadsResults D δ x pre e) :
    (∀ post, Event.client x .relaunch ∉ post → NoLaterLoss D δ x (pre ++ [e]) post) ↔
      ((D.run pre : System ι δ).clients x).markFlag = false ∨
        ((D.run pre : System ι δ).clients x).checks = [] := by
  obtain ⟨hn, hr⟩ := hload
  obtain ⟨hnav, -⟩ := run_nav (δ := δ) D pre x
  have hroom := run_hasRoom (δ := δ) D pre x
  have hstep : ((D.run (pre ++ [e]) : System ι δ).clients x).Over ∧
      ((D.run (pre ++ [e]) : System ι δ).clients x).markFlag =
        ((D.run pre : System ι δ).clients x).markFlag ∧
      ((D.run (pre ++ [e]) : System ι δ).clients x).checks =
        ((D.run pre : System ι δ).clients x).checks := by
    rw [run_concat] at hr ⊢
    rcases clients_step D (D.run pre : System ι δ) e x with ⟨-, hsame⟩ | ⟨e', he, hown⟩
    · rw [hsame, hn] at hr
      cases hr
    · rw [hown] at hr ⊢
      exact ⟨(Client.over_of_results hnav _ hn hr).1, Client.same_of_results hnav hroom _ hn hr⟩
  obtain ⟨hover, hflag, hchecks⟩ := hstep
  constructor
  · intro h
    by_contra hnot
    obtain ⟨hf, hch⟩ := not_or.mp hnot
    obtain ⟨ch, rest, hcons⟩ := List.exists_cons_of_ne_nil hch
    -- the oldest check fires when it is due
    have hloss := h [.clock ch.due, .client x (.check 0)] (by simp) [.clock ch.due] (.check 0) []
      rfl
    have hsame : ((D.run (pre ++ [e] ++ [.clock ch.due]) : System ι δ).clients x) =
        (D.run (pre ++ [e]) : System ι δ).clients x := by
      rw [run_concat]
      rfl
    have hdue : ch.due ≤ ((D.run (pre ++ [e] ++ [.clock ch.due]) : System ι δ).env D x).now := by
      rw [run_concat]
      exact le_max_right _ _
    have hfirst : ((D.run (pre ++ [e]) : System ι δ).clients x).checks[0]? = some ch := by
      rw [hchecks, hcons]
      rfl
    have hset : ((D.run (pre ++ [e]) : System ι δ).clients x).markFlag = true := by
      rw [hflag]
      simpa using hf
    refine hloss.starts ch.task ?_
    rw [hsame, Client.issued_check hfirst hdue, hset]
    exact List.mem_singleton.mpr rfl
  · intro h post hl mid e' rest heq
    subst heq
    have hmid : Event.client x .relaunch ∉ mid := fun hm => hl (List.mem_append_left _ hm)
    have hne : e' ≠ .relaunch := by
      intro he
      exact hl (by simp [he])
    have hq : ((D.run (pre ++ [e]) : System ι δ).clients x).Quiet
        (((D.run (pre ++ [e]) : System ι δ).clients x).transactions.map (·.task)) := by
      refine ⟨?_, ?_⟩
      · rw [hflag, hchecks]
        exact h
      · exact fun t ht => List.mem_map_of_mem ht
    obtain ⟨hover', hq'⟩ := run_quiet D hmid hover hq
    exact hq'.noLoss hover' _ hne

end

/-! ## A check that outlives the game -/

/-- Bob loses, and Ann has just left the app when her listener is told. -/
def annLeavesLate : List (Event Bool) :=
  bothPlaying ++ leaves true 1001 ++ [.client false .didEnterBackground]

/-- Bob loses, and Ann locks her phone before her listener is told. -/
def annLocksLate : List (Event Bool) := annLeavesLate ++ [.client false .lockcomplete]

theorem no_later_loss_annLocksLate :
    LoadsResults twoPhones LeafTree false annLocksLate (.client false (.snapshot 2 4 false)) ∧
      ∀ post, Event.client false .relaunch ∉ post →
        NoLaterLoss twoPhones LeafTree false
          (annLocksLate ++ [.client false (.snapshot 2 4 false)]) post := by
  have hload : LoadsResults twoPhones LeafTree false annLocksLate
      (.client false (.snapshot 2 4 false)) := by decide +kernel
  exact ⟨hload, (no_later_loss_iff twoPhones hload).mpr (.inl (by decide +kernel))⟩

/-- Ann's phone shows Bob as the loser, and half a second later marks Ann as well. -/
theorem loss_after_results :
    ¬ (LoadsResults twoPhones LeafTree false annLeavesLate
        (.client false (.snapshot 2 4 false)) →
      NoLaterLoss twoPhones LeafTree false
        (annLeavesLate ++ [.client false (.snapshot 2 4 false)])
        [.clock 1002, .client false (.check 0)]) := by
  intro h
  have hloss := h (by decide +kernel) [.clock 1002] (.check 0) [] rfl
  exact hloss.starts 0 (by decide +kernel)

end Unplug.App
