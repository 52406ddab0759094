import Unplug.App.GameEnd
import Mathlib.Data.List.Perm.Basic

/-! # Checks, transactions and their background tasks

Every `appBackgrounded` begins a background task of its own and hands its
identifier to the check it schedules. A check that fires ends the task or hands
it on to the transaction it starts, and the end of the transaction ends the task.
`TaskStep` is all that a step can do to the three of them, with the calls it makes. -/
namespace Unplug.App
open Unplug.Store Unplug.Firebase Unplug.Machine RealtimeDatabase

/-- The call is about a check, a transaction or a background task. -/
def Call.aboutTask : Call → Bool
  | .postYouLost _ | .runTransaction _ | .beginBackgroundTask _ | .endBackgroundTask _ => true
  | _ => false

/-- The background task that a call begins. -/
def Call.begins : Call → Option ℕ
  | .beginBackgroundTask task => some task
  | _ => none

/-- The background task that a call ends. -/
def Call.ends : Call → Option ℕ
  | .endBackgroundTask task => some task
  | _ => none

theorem Call.begins_eq_none {call : Call} (h : call.aboutTask = false) : call.begins = none := by
  cases call with
  | beginBackgroundTask => cases h
  | _ => rfl

theorem Call.ends_eq_none {call : Call} (h : call.aboutTask = false) : call.ends = none := by
  cases call with
  | endBackgroundTask => cases h
  | _ => rfl

theorem map_modify_same {α β : Type*} {f : α → β} (l : List α) (k : ℕ) (g : α → α)
    (h : ∀ a, f (g a) = f a) : (l.modify k g).map f = l.map f := by
  refine List.ext_getElem? fun j => ?_
  rw [List.getElem?_map, List.getElem?_map, List.getElem?_modify]
  by_cases hj : k = j
  · simp [hj, Function.comp_def, h]
  · simp [hj]

theorem map_set_same {α β : Type*} {f : α → β} {l : List α} {k : ℕ} {a b : α}
    (hk : l[k]? = some a) (h : f b = f a) : (l.set k b).map f = l.map f := by
  refine List.ext_getElem? fun j => ?_
  rw [List.getElem?_map, List.getElem?_map, List.getElem?_set]
  by_cases hj : k = j
  · subst hj
    obtain ⟨hlt, rfl⟩ := List.getElem?_eq_some_iff.mp hk
    simp [hlt, h]
  · simp [hj]

namespace Client
section
variable {δ : Type*} [RealtimeDatabase δ] {c : Client}

/-! ## The identifiers -/

theorem nextTask_performToResults (vc : RoomStatsViewController) :
    (c.performToResults vc).nextTask = c.nextTask :=
  present_keeps Client.nextTask (fun _ _ _ => rfl) _ _ fun _ => rfl

theorem nextTask_performRoomStats (id : ℕ) : (c.performRoomStats id).nextTask = c.nextTask :=
  present_keeps Client.nextTask (fun _ _ _ => rfl) _ _ fun _ =>
    setUpLabel_keeps Client.nextTask fun _ _ => rfl

theorem nextTask_appear : c.appear.nextTask = c.nextTask :=
  appear_keeps Client.nextTask fun _ _ _ _ _ => rfl

theorem nextTask_deliver (k : ℕ) (o : Observer) (db : δ) :
    (c.deliver k o db).nextTask = c.nextTask := by
  obtain ⟨obs, -, heq⟩ := c.deliver_eq k o db
  rw [heq]
  split
  · unfold observeEventBlock
    simp only
    split
    · exact nextTask_performRoomStats _
    · rfl
  · unfold listener
    split
    · split
      · exact nextTask_performToResults _
      · rfl
    · rfl
  · unfold setUpLabelCompletion
    split <;> rfl

/-- Only `appBackgrounded` uses up an identifier. -/
theorem nextTask_step (env : Env δ) {e : ClientEvent} (hl : e ≠ .relaunch)
    (hb : e ≠ .didEnterBackground) : (c.step env e).client.nextTask = c.nextTask := by
  cases e with
  | relaunch => exact absurd rfl hl
  | didEnterBackground => exact absurd rfl hb
  | showSetup =>
    simp only [step, showSetup]
    split
    · exact present_keeps Client.nextTask (fun _ _ _ => rfl) (c := c) none (.setup c.nextSetup)
        fun _ => rfl
    · rfl
  | appear => exact nextTask_appear
  | ack =>
    simp only [step]
    rcases ack_cases c with ⟨-, hack⟩ | ⟨w, answer, rest, -, -, hack⟩ |
      ⟨w, n, rest, bet, -, -, -, hack⟩
    · rw [hack]
    · rw [hack]; rfl
    · rw [hack]
      exact present_keeps Client.nextTask (fun _ _ _ => rfl) _ _ fun _ => rfl
  | snapshot k i overlaid =>
    simp only [step, snapshot]
    split
    · exact nextTask_deliver k _ _
    · rfl
  | updateTimer =>
    simp only [step, updateTimer]
    split
    · split
      · exact nextTask_performToResults _
      · rfl
    · rfl
  | createTUI timeLimit =>
    simp only [step, createTUI]
    split
    · rename_i c' hc'
      split at hc'
      · cases hc'; rfl
      · cases hc'
    · rfl
  | deliverWrite accepted => simp only [step, deliverWrite]; split <;> (try split) <;> rfl
  | check k => simp only [step, check]; split <;> (try split) <;> (try split) <;> rfl
  | compare k => simp only [step, compare]; split <;> (try split) <;> rfl
  | completion k error => simp only [step, transactionCompletion]; split <;> (try split) <;> rfl
  | backTUI => simp only [step, backTUI]; split <;> rfl
  | dismiss => simp only [step, dismiss]; split <;> rfl
  | editBetAmount value => simp only [step, editBetAmount]; split <;> rfl
  | scanQRCode text => simp only [step, scanQRCode]; split <;> rfl
  | startRoomTUI => simp only [step, startRoomTUI]; split <;> rfl
  | willEnterForeground => rfl
  | lockcomplete => simp only [step, lockcomplete, deviceLocked]; split <;> rfl
  | runBlock k currentData => rfl

theorem nextTask_le (env : Env δ) {e : ClientEvent} (hl : e ≠ .relaunch) :
    c.nextTask ≤ (c.step env e).client.nextTask := by
  by_cases hb : e = .didEnterBackground
  · subst hb
    simp only [step, didEnterBackground, appBackgrounded]
    split
    · split
      · exact Nat.le_succ _
      · exact le_rfl
    · exact le_rfl
  · exact (nextTask_step env hl hb).ge

/-! ## What a step does -/

/-- What a step does to the scheduled checks and to the transactions, with the
calls it makes about them. -/
inductive TaskStep (env : Env δ) (c : Client) (e : ClientEvent) (c' : Client) : Prop
  | same : c'.checks = c.checks →
      c'.transactions.map (·.task) = c.transactions.map (·.task) →
      (∀ call ∈ c.issued env e, call.aboutTask = false) → TaskStep env c e c'
  | backgrounded {rid : String} : e = .didEnterBackground → c.delegate = true →
      c.currentRID = some rid → c'.checks = c.checks ++ [⟨rid, env.now + 1 / 2, c.nextTask⟩] →
      c'.transactions = c.transactions →
      c.issued env e = [.beginBackgroundTask c.nextTask] → TaskStep env c e c'
  | started {k : ℕ} {ch : Check} : e = .check k → c.checks[k]? = some ch → ch.due ≤ env.now →
      c.markFlag = true → c'.checks = c.checks.eraseIdx k →
      c'.transactions = c.transactions ++ [⟨ch.rid, ch.task, none, false⟩] →
      c.issued env e = [.runTransaction ch.task] → TaskStep env c e c'
  | dropped {k : ℕ} {ch : Check} : e = .check k → c.checks[k]? = some ch → ch.due ≤ env.now →
      c.markFlag = false → c'.checks = c.checks.eraseIdx k → c'.transactions = c.transactions →
      c.issued env e = [.endBackgroundTask ch.task] → TaskStep env c e c'
  | ended {k : ℕ} {t : Transaction} {error : Bool} : e = .completion k error →
      c.transactions[k]? = some t → (t.committed || error) = true → c'.checks = c.checks →
      c'.transactions = c.transactions.eraseIdx k →
      c.issued env e = [.postYouLost (c.stats.bind (·.betAmount)), .endBackgroundTask t.task] →
      TaskStep env c e c'
  | relaunched : e = .relaunch → TaskStep env c e c'

/-- No snapshot and no tick makes a call about a task. -/
theorem aboutTask_issued {env : Env δ} {e : ClientEvent} {call : Call}
    (h : call ∈ c.issued env e) (hb : e ≠ .didEnterBackground) (hc : ∀ k, e ≠ .check k)
    (ht : ∀ k error, e ≠ .completion k error) : call.aboutTask = false := by
  cases e with
  | didEnterBackground => exact absurd rfl hb
  | check k => exact absurd rfl (hc k)
  | completion k error => exact absurd rfl (ht k error)
  | snapshot k i overlaid =>
    simp only [issued] at h
    split at h
    · unfold issuedByDeliver at h
      split at h
      · split at h
        · rw [List.mem_singleton.mp h]; rfl
        · cases h
      · split at h
        · split at h
          · rw [List.mem_singleton.mp h]; rfl
          · cases h
        · cases h
      · split at h
        · rw [List.mem_singleton.mp h]; rfl
        · cases h
    · cases h
  | updateTimer =>
    simp only [issued] at h
    split at h
    · split at h
      · rw [List.mem_singleton.mp h]; rfl
      · cases h
    · cases h
  | _ => cases h

/-- **A step of the checks and the transactions.** -/
theorem task_step (env : Env δ) (e : ClientEvent) : TaskStep env c e (c.step env e).client := by
  have hsame : ∀ {c' : Client}, e ≠ .didEnterBackground → (∀ k, e ≠ .check k) →
      (∀ k error, e ≠ .completion k error) → c'.checks = c.checks →
      c'.transactions.map (·.task) = c.transactions.map (·.task) → TaskStep env c e c' := by
    intro c' hb hc ht hchecks htrans
    exact .same hchecks htrans fun call hm => aboutTask_issued hm hb hc ht
  by_cases hm : marking e = false ∧ e ≠ .didEnterBackground
  · obtain ⟨htr, hch⟩ := marks_step (c := c) env hm.1
    refine hsame hm.2 ?_ ?_ (hch hm.2) (by rw [htr])
    · intro k he
      rw [he] at hm
      cases hm.1
    · intro k error he
      rw [he] at hm
      cases hm.1
  cases e with
  | relaunch => exact .relaunched rfl
  | didEnterBackground =>
    by_cases hd : c.delegate = true
    · cases hr : c.currentRID with
      | none =>
        refine .same ?_ ?_ ?_
        · simp [step, didEnterBackground, appBackgrounded, hr]
        · simp [step, didEnterBackground, appBackgrounded, hr]
        · simp [issued, hr]
      | some rid =>
        refine .backgrounded rfl hd hr ?_ ?_ ?_
        · simp [step, didEnterBackground, appBackgrounded, hd, hr]
        · simp [step, didEnterBackground, appBackgrounded, hd, hr]
        · simp [issued, hd, hr]
    · refine .same ?_ ?_ ?_
      · simp [step, didEnterBackground, hd]
      · simp [step, didEnterBackground, hd]
      · simp [issued, hd]
  | check k =>
    cases hch : c.checks[k]? with
    | none =>
      refine .same ?_ ?_ ?_
      · simp [step, check, hch]
      · simp [step, check, hch]
      · simp [issued, hch]
    | some ch =>
      by_cases hdue : env.now < ch.due
      · refine .same ?_ ?_ ?_
        · simp [step, check, hch, hdue]
        · simp [step, check, hch, hdue]
        · simp [issued, hch, hdue]
      · have hflag : markFlag { c with checks := c.checks.eraseIdx k } = c.markFlag := rfl
        cases hf : c.markFlag with
        | true =>
          refine .started rfl hch (not_lt.mp hdue) hf ?_ ?_ ?_
          · simp [step, check, hch, hdue, hflag, hf]
          · simp [step, check, hch, hdue, hflag, hf]
          · simp [issued, hch, hdue, hf]
        | false =>
          refine .dropped rfl hch (not_lt.mp hdue) hf ?_ ?_ ?_
          · simp [step, check, hch, hdue, hflag, hf]
          · simp [step, check, hch, hdue, hflag, hf]
          · simp [issued, hch, hdue, hf]
  | completion k error =>
    cases ht : c.transactions[k]? with
    | none =>
      refine .same ?_ ?_ ?_
      · simp [step, transactionCompletion, ht]
      · simp [step, transactionCompletion, ht]
      · simp [issued, ht]
    | some t =>
      cases he : (t.committed || error) with
      | false =>
        refine .same ?_ ?_ ?_
        · simp [step, transactionCompletion, ht, he]
        · simp [step, transactionCompletion, ht, he]
        · simp [issued, ht, he]
      | true =>
        refine .ended rfl ht he ?_ ?_ ?_
        · simp [step, transactionCompletion, ht, he]
        · simp [step, transactionCompletion, ht, he]
        · simp [issued, ht, he]
  | runBlock k currentData =>
    refine hsame (by simp) (by simp) (by simp) rfl ?_
    refine map_modify_same _ _ _ fun t => ?_
    split <;> rfl
  | compare k =>
    refine hsame (by simp) (by simp) (by simp) ?_ ?_
    · simp only [step, compare]
      split <;> (try split) <;> rfl
    · simp only [step, compare]
      split
      · rename_i hk
        split
        · exact map_set_same hk rfl
        · exact map_set_same hk rfl
      · rfl
  | _ => exact absurd ⟨rfl, by simp⟩ hm

/-! ## The balance -/

/-- The background tasks that the process began. -/
def begun (c : Client) : List ℕ := c.calls.filterMap Call.begins

/-- The background tasks that the process ended. -/
def ended (c : Client) : List ℕ := c.calls.filterMap Call.ends

/-- The background tasks that a scheduled check or a transaction in flight holds. -/
def held (c : Client) : List ℕ := c.checks.map (·.task) ++ c.transactions.map (·.task)

/-- Every task begun is either ended or held, and each of them once. -/
structure Balanced (c : Client) : Prop where
  perm : c.begun.Perm (c.ended ++ c.held)
  lt : ∀ task ∈ c.begun, task < c.nextTask
  nodup : c.begun.Nodup

theorem balanced_launch : Balanced launch where
  perm := .refl _
  lt _ h := (List.not_mem_nil h).elim
  nodup := List.nodup_nil

theorem begun_step (env : Env δ) {e : ClientEvent} (hl : e ≠ .relaunch) :
    (c.step env e).client.begun = c.begun ++ (c.issued env e).filterMap Call.begins := by
  rw [begun, calls_step env hl, List.filterMap_append, begun]

theorem ended_step (env : Env δ) {e : ClientEvent} (hl : e ≠ .relaunch) :
    (c.step env e).client.ended = c.ended ++ (c.issued env e).filterMap Call.ends := by
  rw [ended, calls_step env hl, List.filterMap_append, ended]

/-- What is taken out of a list and what stays make up the list. -/
theorem perm_eraseIdx {α β : Type*} {f : α → β} {l : List α} {k : ℕ} {a : α} (h : l[k]? = some a) :
    (l.map f).Perm (f a :: (l.eraseIdx k).map f) := by
  obtain ⟨hk, rfl⟩ := List.getElem?_eq_some_iff.mp h
  exact (List.getElem_cons_eraseIdx_perm hk).symm.map f

/-- A step that begins no task and ends those it no longer holds keeps the balance. -/
theorem Balanced.settle (h : c.Balanced) {env : Env δ} {e : ClientEvent} (hl : e ≠ .relaunch)
    {out : List ℕ}
    (hbegins : (c.issued env e).filterMap Call.begins = [])
    (hends : (c.issued env e).filterMap Call.ends = out)
    (hheld : c.held.Perm (out ++ (c.step env e).client.held)) :
    (c.step env e).client.Balanced := by
  have hbegun : (c.step env e).client.begun = c.begun := by
    rw [begun_step env hl, hbegins, List.append_nil]
  refine ⟨?_, ?_, ?_⟩
  · rw [hbegun, ended_step env hl, hends, List.append_assoc]
    exact h.perm.trans (hheld.append_left _)
  · rw [hbegun]
    exact fun task ht => (h.lt task ht).trans_le (nextTask_le env hl)
  · rw [hbegun]
    exact h.nodup

theorem Balanced.step (h : c.Balanced) (env : Env δ) (e : ClientEvent) :
    (c.step env e).client.Balanced := by
  by_cases hl : e = .relaunch
  · subst hl
    exact balanced_launch
  cases task_step (c := c) env e with
  | relaunched he => exact absurd he hl
  | same hch htr hcalls =>
    have hends : (c.issued env e).filterMap Call.ends = [] :=
      List.filterMap_eq_nil_iff.mpr fun call hm => Call.ends_eq_none (hcalls call hm)
    refine h.settle hl ?_ hends ?_
    · exact List.filterMap_eq_nil_iff.mpr fun call hm => Call.begins_eq_none (hcalls call hm)
    · rw [held, held, hch, htr, List.nil_append]
  | backgrounded he hd hr hch htr hcalls =>
    subst he
    have hnext : (c.step env .didEnterBackground).client.nextTask = c.nextTask + 1 := by
      simp [Client.step, didEnterBackground, appBackgrounded, hd, hr]
    have hbegun : (c.step env .didEnterBackground).client.begun = c.begun ++ [c.nextTask] := by
      rw [begun_step env hl, hcalls]
      rfl
    have hended : (c.step env .didEnterBackground).client.ended = c.ended := by
      rw [ended_step env hl, hcalls]
      exact List.append_nil _
    refine ⟨?_, ?_, ?_⟩
    · rw [hbegun, hended, held, hch, htr, List.map_append, List.append_assoc]
      refine (h.perm.append_right [c.nextTask]).trans ?_
      rw [held, List.append_assoc, List.append_assoc]
      exact ((List.perm_append_comm).append_left _).append_left _
    · rw [hbegun, hnext]
      intro task ht
      rcases List.mem_append.mp ht with ht | ht
      · exact (h.lt task ht).trans (Nat.lt_succ_self _)
      · rw [List.mem_singleton.mp ht]
        exact Nat.lt_succ_self _
    · rw [hbegun]
      refine List.nodup_append.mpr ⟨h.nodup, List.nodup_singleton _, ?_⟩
      intro task ht task' ht' he
      rw [he, List.mem_singleton.mp ht'] at ht
      exact absurd (h.lt _ ht) (lt_irrefl _)
  | @started k ch he hk hdue hf hch htr hcalls =>
    subst he
    have hends : (c.issued env (.check k)).filterMap Call.ends = [] := by
      rw [hcalls]
      rfl
    refine h.settle hl (by rw [hcalls]; rfl) hends ?_
    -- the task moves from the check to the transaction
    rw [held, held, hch, htr, List.map_append, List.nil_append, ← List.append_assoc]
    refine ((perm_eraseIdx hk).append_right _).trans ?_
    exact (List.perm_append_singleton _ _).symm
  | @dropped k ch he hk hdue hf hch htr hcalls =>
    subst he
    have hends : (c.issued env (.check k)).filterMap Call.ends = [ch.task] := by
      rw [hcalls]
      rfl
    refine h.settle hl (by rw [hcalls]; rfl) hends ?_
    rw [held, held, hch, htr]
    exact (perm_eraseIdx hk).append_right _
  | @ended k t error he hk hend hch htr hcalls =>
    subst he
    have hends : (c.issued env (.completion k error)).filterMap Call.ends = [t.task] := by
      rw [hcalls]
      rfl
    refine h.settle hl (by rw [hcalls]; rfl) hends ?_
    rw [held, held, hch, htr]
    exact ((perm_eraseIdx hk).append_left _).trans List.perm_middle

end
end Client

section
variable {ι δ : Type*} [DecidableEq ι] [RealtimeDatabase δ]

theorem run_balanced (D : Deployment ι) (evs : List (Event ι)) (x : ι) :
    ((D.run evs : System ι δ).clients x).Balanced :=
  client_invariant D Client.balanced_launch (fun _ env e h => h.step env e) evs x

/-- **Background tasks are balanced.** In every state of a run the tasks that a
client began and has not ended are those held by a scheduled check or by a
transaction in flight, each by one of them only; none is ended twice, and none is
open where nothing is pending. -/
theorem background_tasks_balanced (D : Deployment ι) (evs : List (Event ι)) (x : ι) :
    let c := (D.run evs : System ι δ).clients x
    (∀ task, task ∈ c.begun ∧ task ∉ c.ended ↔
      task ∈ c.checks.map (·.task) ∨ task ∈ c.transactions.map (·.task)) ∧
    (c.checks.map (·.task) ++ c.transactions.map (·.task)).Nodup ∧ c.ended.Nodup ∧
    (c.checks = [] → c.transactions = [] → ∀ task ∈ c.begun, task ∈ c.ended) := by
  intro c
  have h : c.Balanced := run_balanced D evs x
  have hnodup := h.perm.nodup_iff.mp h.nodup
  obtain ⟨hended, hheld, hapart⟩ := List.nodup_append.mp hnodup
  have hmem : ∀ task, task ∈ c.begun ↔ task ∈ c.ended ∨ task ∈ c.held := fun task =>
    h.perm.mem_iff.trans List.mem_append
  have hopen : ∀ task, task ∈ c.begun ∧ task ∉ c.ended ↔ task ∈ c.held := by
    intro task
    constructor
    · intro ht
      exact ((hmem task).mp ht.1).resolve_left ht.2
    · intro ht
      exact ⟨(hmem task).mpr (.inr ht), fun he => hapart task he task ht rfl⟩
  refine ⟨fun task => (hopen task).trans List.mem_append, hheld, hended, ?_⟩
  intro hch htr task ht
  rcases (hmem task).mp ht with he | hm
  · exact he
  · simp [Client.held, hch, htr] at hm

end

end Unplug.App
