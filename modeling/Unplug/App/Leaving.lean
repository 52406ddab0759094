import Unplug.App.Notices

/-! # What leaving the app costs

A check that finds the flag set starts a mark transaction, and a transaction that
commits leaves a time other than zero in the user's entry. So, once all of them are
through, the entry tells whether any check has found the flag set. -/
namespace Unplug.App
open Unplug.Store Unplug.Firebase Unplug.Machine Unplug.Room RealtimeDatabase

/-! ## Times -/

section
variable {δ : Type*} [RealtimeDatabase δ]

/-- The mark of a positive time makes a loss of a number, and keeps a loss. -/
theorem lost_commitMark {db : δ} {rid uid : String} {ts q : ℚ} (hts : 0 < ts)
    (h : leafAt db (roomUserTimeRef rid uid) = some (.num q)) :
    lost (commitMark db rid uid ts) rid uid := by
  by_cases hq : q = 0
  · refine ⟨ts, numAt_eq_some.mpr ?_, hts.ne'⟩
    rw [leafAt_commitMark, h, hq]
    rfl
  · refine ⟨q, numAt_eq_some.mpr ?_, hq⟩
    rw [leafAt_commitMark, h, markBlock, if_neg (by simpa using hq)]

end

namespace Client
section
variable {δ : Type*} [RealtimeDatabase δ] {c : Client}

/-- The times that the transactions' blocks read are positive. -/
def Dated (c : Client) : Prop :=
  ∀ t ∈ c.transactions, ∀ value now, t.run = some (value, now) → 0 < now

theorem Dated.step (h : c.Dated) {env : Env δ} (hnow : 0 < env.now) (e : ClientEvent) :
    (c.step env e).client.Dated := by
  intro t ht value now hrun
  cases transaction_step env e ht with
  | same hm => exact h t hm value now hrun
  | ran =>
    cases hrun
    exact hnow
  | returned => cases hrun
  | @committed t₀ hm => exact h t₀ hm value now hrun
  | begun => cases hrun

/-- What a comparison does: the server takes the block's result, sends the value it
has instead, or has nothing to compare. -/
inductive CompareStep (env : Env δ) (c : Client) (k : ℕ) : Outcome → Prop
  | taken {rid : String} {task : ℕ} {value : Option Leaf} {now : ℚ} :
      c.transactions[k]? = some ⟨rid, task, some (value, now), false⟩ →
      leafAt env.db (roomUserTimeRef rid env.user.uid) = value →
      CompareStep env c k
        { client := { c with
            transactions := c.transactions.set k ⟨rid, task, some (value, now), true⟩ }
          op := some (.mark rid env.user.uid now) }
  | refused {rid : String} {task : ℕ} {value : Option Leaf} {now : ℚ} :
      c.transactions[k]? = some ⟨rid, task, some (value, now), false⟩ →
      leafAt env.db (roomUserTimeRef rid env.user.uid) ≠ value →
      CompareStep env c k
        { client := { c with transactions := c.transactions.set k ⟨rid, task, none, false⟩ } }
  | nothing : CompareStep env c k { client := c }

theorem compare_step (env : Env δ) (k : ℕ) : CompareStep env c k (c.compare env k) := by
  unfold compare
  split
  · rename_i hk
    split
    · rename_i hv
      exact .taken hk hv
    · rename_i hv
      exact .refused hk hv
  · exact .nothing

/-- Only a comparison makes a transaction committed. -/
theorem committed_step (env : Env δ) {e : ClientEvent} (hc : ∀ k, e ≠ .compare k) {t : Transaction}
    (ht : t ∈ (c.step env e).client.transactions) (hcom : t.committed = true) :
    t ∈ c.transactions := by
  by_cases hm : marking e = false
  · exact (marks_step env hm).1 ▸ ht
  cases e with
  | compare k => exact absurd rfl (hc k)
  | relaunch => exact (List.not_mem_nil ht).elim
  | check k =>
    simp only [step, check] at ht
    split at ht
    · split at ht
      · exact ht
      · split at ht
        · rcases List.mem_append.mp ht with ht | ht
          · exact ht
          · rw [List.mem_singleton.mp ht] at hcom
            cases hcom
        · exact ht
    · exact ht
  | runBlock k currentData =>
    obtain ⟨j, hj⟩ := List.mem_iff_getElem?.mp ht
    rw [show (c.step env (.runBlock k currentData)).client.transactions =
      c.transactions.modify k _ from rfl, List.getElem?_modify] at hj
    obtain ⟨t₀, ht₀, rfl⟩ := Option.map_eq_some_iff.mp hj
    split at hcom
    · split at hcom
      · rename_i hk h0
        rw [if_pos hk, if_pos h0]
        exact List.mem_of_getElem? ht₀
      · rename_i h0
        exact absurd hcom h0
    · rename_i hk
      rw [if_neg hk]
      exact List.mem_of_getElem? ht₀
  | completion k error =>
    simp only [step, transactionCompletion] at ht
    split at ht
    · split at ht
      · exact List.mem_of_mem_eraseIdx ht
      · exact ht
    · exact ht
  | _ => exact absurd rfl hm

/-! ## The account of a game -/

/-- The step is a due check that finds the flag set. -/
def StartsMark (env : Env δ) (c : Client) (e : ClientEvent) : Prop :=
  ∃ k ch, e = .check k ∧ c.checks[k]? = some ch ∧ ch.due ≤ env.now ∧ c.markFlag = true

/-- The entry of `uid` in the room `rid` against what the client has done since it was
`lost₀`: `marked` says that a check has found the flag set. -/
structure Account (rid uid : String) (lost₀ marked : Prop) (db : δ) (c : Client) : Prop where
  numeric : ∃ q, leafAt db (roomUserTimeRef rid uid) = some (.num q)
  kept : lost₀ → lost db rid uid
  cause : lost db rid uid → lost₀ ∨ marked
  started : c.transactions ≠ [] → marked
  recorded : marked → lost db rid uid ∨ c.transactions ≠ []
  committed : ∀ t ∈ c.transactions, t.committed = true → lost db rid uid
  checks : ∀ ch ∈ c.checks, ch.rid = rid
  transactions : ∀ t ∈ c.transactions, t.rid = rid

variable {rid uid : String} {lost₀ marked : Prop} {db : δ}

/-- A game with nothing pending starts with what the entry says. -/
theorem Account.start (hnumeric : ∃ q, leafAt db (roomUserTimeRef rid uid) = some (.num q))
    (hch : c.checks = []) (htr : c.transactions = []) (hm : ¬ marked) :
    Account rid uid (lost db rid uid) marked db c := by
  refine ⟨hnumeric, id, .inl, fun hne => absurd htr hne, fun h => absurd h hm, ?_, ?_, ?_⟩
  · rw [htr]
    exact fun t ht => (List.not_mem_nil ht).elim
  · rw [hch]
    exact fun ch hm => (List.not_mem_nil hm).elim
  · rw [htr]
    exact fun t ht => (List.not_mem_nil ht).elim

/-- The account reads the entry only. -/
theorem Account.frame (h : Account rid uid lost₀ marked db c) {db' : δ}
    (hleaf : leafAt db' (roomUserTimeRef rid uid) = leafAt db (roomUserTimeRef rid uid)) :
    Account rid uid lost₀ marked db' c := by
  have hlost : lost db' rid uid ↔ lost db rid uid := by
    unfold lost timeAt numAt
    rw [hleaf]
  refine ⟨?_, fun h0 => hlost.mpr (h.kept h0), fun hl => h.cause (hlost.mp hl), h.started, ?_,
    fun t ht hc => hlost.mpr (h.committed t ht hc), h.checks, h.transactions⟩
  · rw [hleaf]
    exact h.numeric
  · intro hm
    exact (h.recorded hm).imp_left hlost.mpr

theorem Account.transactions_step (h : Account rid uid lost₀ marked db c) (env : Env δ)
    (e : ClientEvent) : ∀ t ∈ (c.step env e).client.transactions, t.rid = rid := by
  intro t ht
  cases transaction_step env e ht with
  | same hm => exact h.transactions t hm
  | @ran t₀ _ hm => exact h.transactions t₀ hm
  | @returned t₀ hm => exact h.transactions t₀ hm
  | @committed t₀ hm => exact h.transactions t₀ hm
  | @begun k ch _ hk => exact h.checks ch (List.mem_of_getElem? hk)

/-- A step of the client other than a comparison, which ends no transaction in an error. -/
theorem Account.step (h : Account rid uid lost₀ marked db c) {env : Env δ} {e : ClientEvent}
    (hrid : c.currentRID = some rid) (hl : e ≠ .relaunch) (hc : ∀ k, e ≠ .compare k)
    (herr : ∀ k, e ≠ .completion k true) :
    Account rid uid lost₀ (marked ∨ StartsMark env c e) db (c.step env e).client := by
  have hcom : ∀ t ∈ (c.step env e).client.transactions, t.committed = true → lost db rid uid :=
    fun t ht hcom => h.committed t (committed_step env hc ht hcom) hcom
  have hcause : lost db rid uid → lost₀ ∨ marked ∨ StartsMark env c e := fun hlost =>
    (h.cause hlost).imp_right .inl
  have htrans := h.transactions_step env e
  cases task_step (c := c) env e with
  | same hch htr hcalls =>
    have hne : (c.step env e).client.transactions ≠ [] ↔ c.transactions ≠ [] := by
      have hlen : (c.step env e).client.transactions.length = c.transactions.length := by
        simpa using congrArg List.length htr
      rw [← List.length_pos_iff, ← List.length_pos_iff, hlen]
    have hno : ¬ StartsMark env c e := by
      intro hx
      obtain ⟨k, ch, he, hk, hdue, hf⟩ := hx
      subst he
      rw [issued_check hk hdue, hf] at hcalls
      exact absurd (hcalls _ (List.mem_singleton.mpr rfl)) (by simp [Call.aboutTask])
    refine ⟨h.numeric, h.kept, hcause, fun ht => .inl (h.started (hne.mp ht)), ?_, hcom,
      hch ▸ h.checks, htrans⟩
    intro hm
    exact (h.recorded (hm.resolve_right hno)).imp_right hne.mpr
  | @backgrounded r he hd hr hch htr =>
    obtain rfl : r = rid := Option.some.inj (hr.symm.trans hrid)
    refine ⟨h.numeric, h.kept, hcause, fun ht => .inl (h.started (htr ▸ ht)), ?_, hcom, ?_, htrans⟩
    · intro hm
      have hno : ¬ StartsMark env c e := by
        intro hx
        obtain ⟨k, ch, hk, -⟩ := hx
        rw [he] at hk
        cases hk
      rw [htr]
      exact h.recorded (hm.resolve_right hno)
    · intro ch hm
      rw [hch] at hm
      rcases List.mem_append.mp hm with hm | hm
      · exact h.checks ch hm
      · rw [List.mem_singleton.mp hm]
  | @started k ch he hk hdue hf hch htr =>
    have hne : (c.step env e).client.transactions ≠ [] := by
      rw [htr]
      simp
    refine ⟨h.numeric, h.kept, hcause, fun _ => .inr ⟨k, ch, he, hk, hdue, hf⟩,
      fun _ => .inr hne, hcom, ?_, htrans⟩
    intro ch' hm
    rw [hch] at hm
    exact h.checks ch' (List.mem_of_mem_eraseIdx hm)
  | @dropped k ch he hk hdue hf hch htr =>
    refine ⟨h.numeric, h.kept, hcause, fun ht => .inl (h.started (htr ▸ ht)), ?_, hcom, ?_, htrans⟩
    · intro hm
      have hno : ¬ StartsMark env c e := by
        intro hx
        obtain ⟨_, _, -, -, -, hset⟩ := hx
        rw [hf] at hset
        cases hset
      rw [htr]
      exact h.recorded (hm.resolve_right hno)
    · intro ch' hm
      rw [hch] at hm
      exact h.checks ch' (List.mem_of_mem_eraseIdx hm)
  | @ended k t error he hk hend hch htr =>
    -- the ended transaction was committed, so the loss is there
    have hlost : lost db rid uid := by
      cases error with
      | true => exact absurd he (herr k)
      | false => exact h.committed t (List.mem_of_getElem? hk) (by simpa using hend)
    have hne : c.transactions ≠ [] := List.ne_nil_of_mem (List.mem_of_getElem? hk)
    exact ⟨h.numeric, h.kept, hcause, fun _ => .inl (h.started hne), fun _ => .inl hlost, hcom,
      hch ▸ h.checks, htrans⟩
  | relaunched he => exact absurd he hl

/-- A comparison of the client's own transaction. -/
theorem Account.compare (env : Env δ) {k : ℕ}
    (h : Account rid env.user.uid lost₀ marked env.db c)
    (hdated : c.Dated) {db' : δ}
    (hdb : db' = ((c.compare env k).op.map fun op => op.apply env.db).getD env.db) :
    Account rid env.user.uid lost₀ marked db'
      (c.compare env k).client := by
  have htrans : ∀ t ∈ (c.compare env k).client.transactions, t.rid = rid :=
    h.transactions_step env (.compare k)
  have hstep := compare_step (c := c) env k
  generalize c.compare env k = o at hdb htrans hstep ⊢
  cases hstep with
  | @taken r task value now hk hv =>
    have hm := List.mem_of_getElem? hk
    obtain rfl : r = rid := h.transactions _ hm
    have hnow : 0 < now := hdated _ hm value now rfl
    obtain ⟨q, hq⟩ := h.numeric
    have hlost : lost db' r env.user.uid := by
      rw [hdb]
      exact lost_commitMark hnow hq
    have hmarked : marked := h.started (List.ne_nil_of_mem hm)
    have hnum : ∃ q, leafAt db' (roomUserTimeRef r env.user.uid) = some (.num q) := by
      obtain ⟨q', hq', -⟩ := hlost
      exact ⟨q', numAt_eq_some.mp hq'⟩
    exact ⟨hnum, fun _ => hlost, fun _ => .inr hmarked, fun _ => hmarked, fun _ => .inl hlost,
      fun _ _ _ => hlost, h.checks, htrans⟩
  | @refused r task value now hk hv =>
    have hm := List.mem_of_getElem? hk
    have hne : c.transactions ≠ [] := List.ne_nil_of_mem hm
    obtain rfl : db' = env.db := hdb
    refine ⟨h.numeric, h.kept, h.cause, fun _ => h.started hne, ?_, ?_, h.checks, htrans⟩
    · intro _
      refine .inr ?_
      simpa using hne
    · intro t ht hcom
      rcases List.mem_or_eq_of_mem_set ht with ht | rfl
      · exact h.committed t ht hcom
      · cases hcom
  | nothing =>
    obtain rfl : db' = env.db := hdb
    exact h

end
end Client

/-! ## Runs -/

section
variable {ι δ : Type*} [DecidableEq ι] [RealtimeDatabase δ]

theorem run_now_pos (D : Deployment ι) (evs : List (Event ι)) :
    0 < (D.run evs : System ι δ).now := by
  induction evs using List.reverseRecOn with
  | nil => exact D.launchTime_pos
  | append_singleton evs e ih =>
    rw [run_concat]
    cases e with
    | clock t => exact lt_max_of_lt_left ih
    | client c e =>
      rw [step_client_now]
      exact ih

theorem run_dated (D : Deployment ι) (evs : List (Event ι)) (x : ι) :
    ((D.run evs : System ι δ).clients x).Dated := by
  induction evs using List.reverseRecOn with
  | nil => exact fun t ht => (List.not_mem_nil ht).elim
  | append_singleton evs e ih =>
    rw [run_concat]
    rcases clients_step D (D.run evs : System ι δ) e x with ⟨-, hsame⟩ | ⟨e', -, hown⟩
    · rw [hsame]
      exact ih
    · rw [hown]
      exact ih.step (run_now_pos D evs) e'

/-- The event compares a transaction of `x`. -/
def Event.compares (x : ι) : Event ι → Bool
  | .client c (.compare _) => decide (c = x)
  | _ => false

/-- In `post`, after `pre`, the client `x` plays in the room `rid`: its stats controller
stays the delegate, the rid stays, nothing is pending at the start, and the time of its
entry is a number that nothing writes but its own transactions. -/
structure Playing (D : Deployment ι) (δ : Type*) [RealtimeDatabase δ] (x : ι) (rid : String)
    (pre post : List (Event ι)) : Prop where
  delegate : StaysDelegate D δ x pre post
  currentRID : ∀ mid, mid <+: post →
    ((D.run (pre ++ mid) : System ι δ).clients x).currentRID = some rid
  checks : ((D.run pre : System ι δ).clients x).checks = []
  transactions : ((D.run pre : System ι δ).clients x).transactions = []
  numeric : ∃ q, leafAt (D.run pre : System ι δ).db (roomUserTimeRef rid (D.user x).uid) =
    some (.num q)
  untouched : Along (System.step D) (fun (s : System ι δ) e => e.compares x = false →
    leafAt (s.step D e).db (roomUserTimeRef rid (D.user x).uid) =
      leafAt s.db (roomUserTimeRef rid (D.user x).uid)) (D.run pre) post

theorem Playing.cut {D : Deployment ι} {x : ι} {rid : String} {pre post rest : List (Event ι)}
    (h : Playing D δ x rid pre (post ++ rest)) : Playing D δ x rid pre post where
  delegate mid hm := h.delegate mid (hm.trans (List.prefix_append _ _))
  currentRID mid hm := h.currentRID mid (hm.trans (List.prefix_append _ _))
  checks := h.checks
  transactions := h.transactions
  numeric := h.numeric
  untouched := (Along.append.mp h.untouched).1

/-- A check of `post` finds the flag set. -/
def Marked (D : Deployment ι) (δ : Type*) [RealtimeDatabase δ] (x : ι)
    (pre post : List (Event ι)) : Prop :=
  ∃ mid k rest ch, post = mid ++ .client x (.check k) :: rest ∧ Fires D δ x pre mid k ch ∧
    ((D.run (pre ++ mid) : System ι δ).clients x).markFlag = true

theorem marked_concat {D : Deployment ι} {x : ι} {pre post : List (Event ι)} {e : Event ι} :
    Marked D δ x pre (post ++ [e]) ↔ Marked D δ x pre post ∨ ∃ e', e = .client x e' ∧
      Client.StartsMark ((D.run (pre ++ post) : System ι δ).env D x)
        ((D.run (pre ++ post) : System ι δ).clients x) e' := by
  constructor
  · intro hx
    obtain ⟨mid, k, rest, ch, heq, hf, hflag⟩ := hx
    rcases List.eq_nil_or_concat rest with rfl | ⟨rest, e', rfl⟩
    · obtain ⟨rfl, he⟩ := List.append_inj' heq rfl
      exact .inr ⟨.check k, by simpa using he, k, ch, rfl, hf.1, hf.2, hflag⟩
    · have heq' : post ++ [e] = (mid ++ .client x (.check k) :: rest) ++ [e'] := by
        rw [heq]
        simp
      obtain ⟨rfl, -⟩ := List.append_inj' heq' rfl
      exact .inl ⟨mid, k, rest, ch, rfl, hf, hflag⟩
  · intro hx
    rcases hx with ⟨mid, k, rest, ch, rfl, hf, hflag⟩ | ⟨e', rfl, k, ch, rfl, hk, hdue, hflag⟩
    · exact ⟨mid, k, rest ++ [e], ch, by simp, hf, hflag⟩
    · exact ⟨post, k, [], ch, rfl, ⟨hk, hdue⟩, hflag⟩

/-- The database after a comparison of `x`. -/
theorem db_compare (D : Deployment ι) (s : System ι δ) (x : ι) (k : ℕ) :
    (s.step D (.client x (.compare k))).db =
      (((s.clients x).compare (s.env D x) k).op.map fun op => op.apply s.db).getD s.db := by
  cases hop : s.applied D (.client x (.compare k)) with
  | none =>
    rw [(db_step_none D hop).1, show ((s.clients x).compare (s.env D x) k).op = none from hop]
    rfl
  | some op =>
    rw [(db_step_some D hop).1, show ((s.clients x).compare (s.env D x) k).op = some op from hop]
    rfl

/-- The account of a game holds throughout it. -/
theorem run_account {D : Deployment ι} {x : ι} {rid : String} {pre post : List (Event ι)}
    (h : Playing D δ x rid pre post) (herr : ∀ k, Event.client x (.completion k true) ∉ post) :
    Client.Account rid (D.user x).uid
      (lost (D.run pre : System ι δ).db rid (D.user x).uid)
      (Marked D δ x pre post) (D.run (pre ++ post) : System ι δ).db
      ((D.run (pre ++ post) : System ι δ).clients x) := by
  induction post using List.reverseRecOn with
  | nil =>
    rw [List.append_nil]
    refine .start h.numeric h.checks h.transactions ?_
    intro hx
    obtain ⟨mid, k, rest, ch, heq, -⟩ := hx
    simp at heq
  | append_singleton post e ih =>
    have hacc := ih h.cut fun k hm => herr k (List.mem_append_left _ hm)
    have hleaf := (Along.concat.mp h.untouched).2
    rw [← run_append] at hleaf
    have hrid := h.currentRID post (List.prefix_append _ _)
    have hd := h.delegate (post ++ [e]) List.prefix_rfl
    rw [← List.append_assoc, run_concat] at hd ⊢
    rw [marked_concat]
    rcases clients_step D (D.run (pre ++ post) : System ι δ) e x with ⟨hne, hsame⟩ | ⟨e', he, hown⟩
    · have hno : ¬ ∃ e', e = .client x e' ∧
          Client.StartsMark ((D.run (pre ++ post) : System ι δ).env D x)
            ((D.run (pre ++ post) : System ι δ).clients x) e' := by
        intro hx
        obtain ⟨e', he, -⟩ := hx
        exact hne e' he
      have hcmp : e.compares x = false := by
        cases e with
        | clock t => rfl
        | client y e =>
          cases e with
          | compare k => exact decide_eq_false fun hy => hne (.compare k) (by rw [hy])
          | _ => rfl
      rw [hsame, or_iff_left hno]
      exact hacc.frame (hleaf hcmp)
    · subst he
      have hone : (∃ e'', Event.client x e' = .client x e'' ∧
          Client.StartsMark ((D.run (pre ++ post) : System ι δ).env D x)
            ((D.run (pre ++ post) : System ι δ).clients x) e'') ↔
          Client.StartsMark ((D.run (pre ++ post) : System ι δ).env D x)
            ((D.run (pre ++ post) : System ι δ).clients x) e' := by
        simp
      have hl : e' ≠ .relaunch := by
        intro he
        rw [hown, he] at hd
        cases hd
      rw [hown, hone]
      by_cases hc : ∃ k, e' = .compare k
      · obtain ⟨k, rfl⟩ := hc
        have hno : ¬ Client.StartsMark ((D.run (pre ++ post) : System ι δ).env D x)
            ((D.run (pre ++ post) : System ι δ).clients x) (.compare k) := by
          intro hx
          obtain ⟨_, _, hx, -⟩ := hx
          cases hx
        rw [or_iff_left hno]
        exact Client.Account.compare ((D.run (pre ++ post) : System ι δ).env D x) hacc
          (run_dated D _ x) (db_compare D _ x k)
      · have hcmp : (Event.client x e').compares x = false := by
          cases e' with
          | compare k => exact absurd ⟨k, rfl⟩ hc
          | _ => rfl
        refine (hacc.step hrid hl (fun k he => hc ⟨k, he⟩) fun k he => ?_).frame (hleaf hcmp)
        exact herr k (by simp [he])

/-- **Leaving is a loss exactly where a check still sees it.** In a game whose
transactions have all ended, none of them in an error, the user's time is other than zero
exactly if it was so before, or the last notification before some check was that the app
went to the background. -/
theorem lost_iff_leftLast (D : Deployment ι) {x : ι} {rid : String} {pre post : List (Event ι)}
    (h : Playing D δ x rid pre post) (herr : ∀ k, Event.client x (.completion k true) ∉ post)
    (hdone : ((D.run (pre ++ post) : System ι δ).clients x).transactions = []) :
    lost (D.run (pre ++ post) : System ι δ).db rid (D.user x).uid ↔
      lost (D.run pre : System ι δ).db rid (D.user x).uid ∨
        ∃ mid k rest ch, post = mid ++ .client x (.check k) :: rest ∧ Fires D δ x pre mid k ch ∧
          lastFlag x mid = some true := by
  have hacc := run_account h herr
  have hmarked : Marked D δ x pre post ↔ ∃ mid k rest ch,
      post = mid ++ .client x (.check k) :: rest ∧ Fires D δ x pre mid k ch ∧
        lastFlag x mid = some true := by
    refine exists_congr fun mid => exists_congr fun k => exists_congr fun rest =>
      exists_congr fun ch => and_congr_right fun heq => and_congr_right fun hf => ?_
    rw [lastFlag_of_fires (fun m hm => h.delegate m (heq ▸ hm.trans (List.prefix_append _ _)))
      h.checks hf, Option.some.injEq]
  rw [← hmarked]
  constructor
  · exact hacc.cause
  · intro hx
    rcases hx with hlost | hm
    · exact hacc.kept hlost
    · exact (hacc.recorded hm).resolve_right fun hne => hne hdone

end

/-! ## A lock that comes after the return -/

/-- Somebody leaves and comes back without a lock in between, or never locks. -/
def LeavesApp (l : List (ℚ × Delivery)) : Prop :=
  ∃ a t b, l = a ++ (t, .didEnterBackground) :: b ∧
    ((∀ p ∈ b, p.2 ≠ .lockcomplete) ∨
      ∃ stay t' rest, b = stay ++ (t', .willEnterForeground) :: rest ∧
        ∀ p ∈ stay, p.2 ≠ .lockcomplete)

/-- Ann leaves the app for good. -/
def annGoes : List (Event Bool) :=
  [.client false .didEnterBackground, .clock 1001, .client false (.check 0),
    .client false (.runBlock 0 (some (.num 0))), .client false (.compare 0),
    .client false (.completion 0 false)]

/-- Ann leaves the app, comes back at once and then locks her phone. -/
def annLooksAway : List (Event Bool) :=
  [.client false .didEnterBackground, .clock (10001 / 10), .client false .willEnterForeground,
    .clock (10002 / 10), .client false .lockcomplete, .clock 1001, .client false (.check 0)]

theorem lost_annGoes :
    lost (twoPhones.run (bothPlaying ++ annGoes) : System Bool LeafTree).db "-" "uidA" := by
  have h : Playing twoPhones LeafTree false "-" bothPlaying annGoes := by
    refine ⟨by decide +kernel, by decide +kernel, by decide +kernel, by decide +kernel, ?_,
      by decide +kernel⟩
    exact ⟨0, by decide +kernel⟩
  have herr : ∀ k, Event.client false (.completion k true) ∉ annGoes := by
    intro k
    simp [annGoes]
  refine (lost_iff_leftLast twoPhones h herr (by decide +kernel)).mpr (.inr ?_)
  exact ⟨[.client false .didEnterBackground, .clock 1001], 0, _, ⟨"-", 2001 / 2, 0⟩, rfl,
    by decide +kernel, rfl⟩

/-- The lock clears the flag before the check reads it, and nothing is marked. -/
theorem not_lost_annLooksAway :
    ¬ (Playing twoPhones LeafTree false "-" bothPlaying annLooksAway →
      LeavesApp (twoPhones.deliveries LeafTree false bothPlaying annLooksAway) →
      (∀ k, Event.client false (.completion k true) ∉ annLooksAway) →
      ((twoPhones.run (bothPlaying ++ annLooksAway) : System Bool LeafTree).clients false).checks =
        [] →
      ((twoPhones.run (bothPlaying ++ annLooksAway) : System Bool LeafTree).clients
        false).transactions = [] →
      lost (twoPhones.run (bothPlaying ++ annLooksAway) : System Bool LeafTree).db "-" "uidA") := by
  intro h
  have hplaying : Playing twoPhones LeafTree false "-" bothPlaying annLooksAway := by
    refine ⟨by decide +kernel, by decide +kernel, by decide +kernel, by decide +kernel, ?_,
      by decide +kernel⟩
    exact ⟨0, by decide +kernel⟩
  have hdeliveries : twoPhones.deliveries LeafTree false bothPlaying annLooksAway =
      [(1000, .didEnterBackground), (10001 / 10, .willEnterForeground),
        (10002 / 10, .lockcomplete)] := by decide +kernel
  have hleaves : LeavesApp (twoPhones.deliveries LeafTree false bothPlaying annLooksAway) := by
    rw [hdeliveries]
    refine ⟨[], 1000, _, rfl, .inr ⟨[], _, _, rfl, ?_⟩⟩
    intro p hp
    cases hp
  have herr : ∀ k, Event.client false (.completion k true) ∉ annLooksAway := by
    intro k
    simp [annLooksAway]
  have hlost := h hplaying hleaves herr (by decide +kernel) (by decide +kernel)
  exact absurd hlost (by decide +kernel)

end Unplug.App
