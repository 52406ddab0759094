import Unplug.App.Leaving

/-! # What the notification says

The completion block of a mark transaction posts the notification whichever way the
transaction ended, and the block counts as a success when it records nothing. So a
process posts one notification for each transaction that ends, and records one loss for
each that ends recorded. -/
namespace Unplug.App
open Unplug.Store Unplug.Firebase Unplug.Machine Unplug.Room RealtimeDatabase

/-- The server took the transaction after its block had run on a zero. -/
def Transaction.recorded (t : Transaction) : Bool :=
  t.committed && match t.run with
    | some (some (.num q), now) => decide (q = 0 ∧ now ≠ 0)
    | _ => false

theorem countP_set_add {α : Type*} {l : List α} {k : ℕ} {a : α} (h : l[k]? = some a) (b : α)
    (p : α → Bool) : (l.set k b).countP p + (p a).toNat = l.countP p + (p b).toNat := by
  obtain ⟨hk, -⟩ := List.getElem?_eq_some_iff.mp h
  have hset : (l.set k b).countP p = (l.eraseIdx k).countP p + (p b).toNat := by
    rw [(List.set_perm_cons_eraseIdx hk b).countP_eq p, List.countP_cons]
    cases p b <;> rfl
  have hold := countP_eraseIdx h p
  omega

namespace Client
section
variable {δ : Type*} [RealtimeDatabase δ] {c : Client}

/-- The transaction that a step ends. -/
def endedMark (c : Client) : ClientEvent → Option Transaction
  | .completion k error => (c.transactions[k]?).filter fun t => t.committed || error
  | _ => none

/-- The step has the server change the user's time from zero to another value. -/
def recordsLoss (env : Env δ) (c : Client) : ClientEvent → Bool
  | .compare k => match (c.compare env k).op with
    | some op => decide (leafAt env.db (roomUserTimeRef op.rid env.user.uid) = some (.num 0) ∧
        lost (op.apply env.db) op.rid env.user.uid)
    | none => false
  | _ => false

/-- How many notifications the process posted. -/
def youLostCalls (c : Client) : ℕ :=
  c.calls.countP fun call => match call with
    | .postYouLost _ => true
    | _ => false

/-- How many transactions have recorded a loss and not ended. -/
def recordedMarks (c : Client) : ℕ := c.transactions.countP Transaction.recorded

theorem youLostCalls_step (env : Env δ) {e : ClientEvent} (hl : e ≠ .relaunch) :
    (c.step env e).client.youLostCalls = c.youLostCalls + (c.endedMark e).isSome.toNat := by
  unfold youLostCalls
  rw [calls_step env hl, List.countP_append]
  congr 1
  cases task_step (c := c) env e with
  | same _ _ hcalls =>
    have hnone : c.endedMark e = none := by
      cases e with
      | completion k error =>
        cases ht : c.transactions[k]? with
        | none => simp [endedMark, ht]
        | some t =>
          cases he : (t.committed || error) with
          | false => simp [endedMark, ht, Option.filter, he]
          | true =>
            have hend := hcalls (.endBackgroundTask t.task) (by simp [issued, ht, he])
            cases hend
      | _ => rfl
    rw [hnone, List.countP_eq_zero.mpr]
    · rfl
    · intro call hm
      have habout := hcalls call hm
      cases call with
      | postYouLost => cases habout
      | _ => simp
  | backgrounded he _ _ _ _ hcalls =>
    rw [hcalls, he]
    rfl
  | started he _ _ _ _ _ hcalls =>
    rw [hcalls, he]
    rfl
  | dropped he _ _ _ _ _ hcalls =>
    rw [hcalls, he]
    rfl
  | @ended k t error he hk hend _ _ hcalls =>
    rw [hcalls, he, endedMark, hk, Option.filter, if_pos hend]
    rfl
  | relaunched he => exact absurd he hl

/-- What the server takes is a recorded loss exactly if it takes a zero away. -/
theorem recorded_taken {db : δ} {rid uid : String} {task : ℕ} {value : Option Leaf} {now : ℚ}
    (hv : leafAt db (roomUserTimeRef rid uid) = value) :
    Transaction.recorded ⟨rid, task, some (value, now), true⟩ =
      decide (leafAt db (roomUserTimeRef rid uid) = some (.num 0) ∧
        lost (commitMark db rid uid now) rid uid) := by
  rw [hv]
  by_cases h0 : value = some (.num 0)
  · have hleaf : leafAt (commitMark db rid uid now) (roomUserTimeRef rid uid) =
        some (.num now) := by
      rw [leafAt_commitMark, hv, h0]
      rfl
    simp [Transaction.recorded, h0, lost, timeAt, numAt, hleaf]
  · rw [decide_eq_false fun h => h0 h.1]
    unfold Transaction.recorded
    split
    · rename_i q _ heq
      obtain ⟨rfl, rfl⟩ := heq
      have hq : q ≠ 0 := by
        intro hq
        rw [hq] at h0
        exact h0 rfl
      simp [hq]
    · rfl

/-- Each recorded loss is in flight until its transaction ends. -/
theorem recordedMarks_step (env : Env δ) {e : ClientEvent} (hl : e ≠ .relaunch) :
    (c.step env e).client.recordedMarks + ((c.endedMark e).any Transaction.recorded).toNat =
      c.recordedMarks + (c.recordsLoss env e).toNat := by
  unfold recordedMarks
  by_cases hm : marking e = false
  · rw [(marks_step env hm).1]
    cases e with
    | check | runBlock | compare | completion | relaunch => cases hm
    | _ => rfl
  cases e with
  | relaunch => exact absurd rfl hl
  | check k =>
    have hcount : (c.step env (.check k)).client.transactions.countP Transaction.recorded =
        c.transactions.countP Transaction.recorded := by
      simp only [step, check]
      split
      · split
        · rfl
        · split
          · rw [List.countP_append]
            rfl
          · rfl
      · rfl
    rw [hcount]
    rfl
  | runBlock k currentData =>
    -- the block of a committed transaction does not run again
    have hmap : (c.step env (.runBlock k currentData)).client.transactions.map
        Transaction.recorded = c.transactions.map Transaction.recorded := by
      refine map_modify_same _ _ _ fun t => ?_
      split
      · rfl
      · rename_i hc
        simp [Transaction.recorded, hc]
    have hcount : ∀ l : List Transaction,
        l.countP Transaction.recorded = (l.map Transaction.recorded).countP id := by
      intro l
      rw [List.countP_map]
      rfl
    rw [hcount, hmap, ← hcount]
    rfl
  | compare k =>
    have hstep := compare_step (c := c) env k
    simp only [step, endedMark, recordsLoss, Option.any_none, Bool.toNat_false, Nat.add_zero]
    generalize c.compare env k = o at hstep ⊢
    cases hstep with
    | @taken rid task value now hk hv =>
      have hset := countP_set_add hk ⟨rid, task, some (value, now), true⟩ Transaction.recorded
      have hold : Transaction.recorded ⟨rid, task, some (value, now), false⟩ = false := rfl
      rw [hold, recorded_taken hv] at hset
      exact hset
    | @refused rid task value now hk hv =>
      have hset := countP_set_add hk ⟨rid, task, none, false⟩ Transaction.recorded
      exact hset
    | nothing => rfl
  | completion k error =>
    simp only [step, transactionCompletion, endedMark, recordsLoss]
    cases ht : c.transactions[k]? with
    | none => rfl
    | some t =>
      cases he : (t.committed || error) with
      | false => simp [Option.filter, he]
      | true =>
        have herase := countP_eraseIdx ht Transaction.recorded
        simpa [Option.filter, he] using herase
  | _ => exact absurd rfl hm

end
end Client

/-! ## One process -/

section
variable {ι δ : Type*} [DecidableEq ι] [RealtimeDatabase δ]

/-- **The notification matches the record exactly where every ending is one.** In a
process whose transactions have all ended, as many notifications were posted as losses
were recorded exactly if the server had taken each transaction that ended, and its block
had run on a zero. -/
theorem youLost_matches_iff (D : Deployment ι) {x : ι} {pre proc : List (Event ι)}
    (hlaunch : (D.run pre : System ι δ).clients x = .launch)
    (hl : Event.client x .relaunch ∉ proc)
    (hdone : ((D.run (pre ++ proc) : System ι δ).clients x).transactions = []) :
    ((D.run (pre ++ proc) : System ι δ).clients x).youLostCalls =
        D.countAt (δ := δ) x Client.recordsLoss pre proc ↔
      ∀ mid e rest, proc = mid ++ .client x e :: rest →
        ∀ t ∈ ((D.run (pre ++ mid) : System ι δ).clients x).endedMark e, t.recorded = true := by
  let ends : Env δ → Client → ClientEvent → Bool := fun _ c e => (c.endedMark e).isSome
  let endsRecorded : Env δ → Client → ClientEvent → Bool := fun _ c e =>
    (c.endedMark e).any Transaction.recorded
  have hposts : ((D.run (pre ++ proc) : System ι δ).clients x).youLostCalls =
      D.countAt x ends pre proc := by
    have h := counter_client (δ := δ) D x (f := Client.youLostCalls) (p := ends)
      (fun c env e _ hne => Client.youLostCalls_step env hne) pre hl
    rw [hlaunch] at h
    exact h.trans (Nat.zero_add _)
  have hrecords : D.countAt x endsRecorded pre proc =
      D.countAt (δ := δ) x Client.recordsLoss pre proc := by
    have h := ledger_client (δ := δ) D x (f := Client.recordedMarks) (q := endsRecorded)
      (fun c env e _ hne => Client.recordedMarks_step env hne) pre hl
    have hend : ((D.run (pre ++ proc) : System ι δ).clients x).recordedMarks = 0 := by
      rw [Client.recordedMarks, hdone]
      rfl
    rw [hend, hlaunch, Nat.zero_add] at h
    exact h.trans (Nat.zero_add _)
  rw [hposts, ← hrecords]
  have hqp : ∀ (s : System ι δ) e, atClient D x endsRecorded s e = true →
      atClient D x ends s e = true := by
    intro s e h
    cases e with
    | clock t => cases h
    | client c e =>
      simp only [atClient, ends, endsRecorded, Bool.and_eq_true] at h ⊢
      refine ⟨h.1, ?_⟩
      cases ht : (s.clients x).endedMark e with
      | none =>
        rw [ht] at h
        cases h.2
      | some t => rfl
  refine (count_eq_iff hqp).trans (along_iff_split.trans ?_)
  constructor
  · intro h mid e rest heq t ht
    have hstep := h mid (.client x e) rest heq
    rw [← run_append] at hstep
    simp only [atClient, decide_true, Bool.true_and, ends, endsRecorded,
      Option.mem_def.mp ht, Option.isSome_some, Option.any_some] at hstep
    exact hstep trivial
  · intro h mid e rest heq
    rw [← run_append]
    intro hp
    cases e with
    | clock t => cases hp
    | client c e =>
      simp only [atClient, ends, endsRecorded, Bool.and_eq_true, decide_eq_true_eq] at hp ⊢
      obtain ⟨rfl, hsome⟩ := hp
      obtain ⟨t, ht⟩ := Option.isSome_iff_exists.mp hsome
      refine ⟨rfl, ?_⟩
      rw [ht]
      exact h mid e rest heq t ht

end

/-! ## A notification without a record -/

/-- Ann leaves the app, and her mark reaches the server. -/
def annMarked : List (Event Bool) :=
  bothPlaying ++ leaves false 1001 ++ [.client false (.completion 0 false)]

/-- Ann leaves the app, and her mark ends in an error. -/
def annUnmarked : List (Event Bool) :=
  bothPlaying ++ [.client false .didEnterBackground, .clock 1001, .client false (.check 0),
    .client false (.completion 0 true)]

theorem youLost_matches_annMarked :
    ((twoPhones.run ([] ++ annMarked) : System Bool LeafTree).clients false).youLostCalls =
        twoPhones.countAt (δ := LeafTree) false Client.recordsLoss [] annMarked ↔
      ∀ mid e rest, annMarked = mid ++ .client false e :: rest →
        ∀ t ∈ ((twoPhones.run ([] ++ mid) : System Bool LeafTree).clients false).endedMark e,
          t.recorded = true :=
  youLost_matches_iff twoPhones rfl (by decide) (by decide +kernel)

/-- The phone says that its user lost, and the server has recorded nothing. -/
theorem youLost_without_record :
    ¬ (Event.client false .relaunch ∉ annUnmarked →
      ((twoPhones.run annUnmarked : System Bool LeafTree).clients false).transactions = [] →
      ((twoPhones.run annUnmarked : System Bool LeafTree).clients false).youLostCalls =
        twoPhones.countAt (δ := LeafTree) false Client.recordsLoss [] annUnmarked) := by
  intro h
  exact absurd (h (by decide) (by decide +kernel)) (by decide +kernel)

end Unplug.App
