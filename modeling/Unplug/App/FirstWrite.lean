import Unplug.App.System
import Unplug.Machine.Optimistic
import Unplug.Room.Ledger

/-! # The first write of a loss time wins

The time of an entry is a cell that mark transactions contend for. The block turns a
zero into the time of the attempt and leaves everything else alone, so it makes only
values that it leaves alone, and the cell changes at most once between two writes of
the entry by a creation or a join. -/
namespace Unplug.App
open Unplug.Store Unplug.Firebase Unplug.Machine Unplug.Room RealtimeDatabase

section
variable {δ : Type*} [RealtimeDatabase δ]

/-! ## The cell -/

/-- The user's time in the room, as the transactions of `appBackgrounded` use it. -/
def timeCell (δ : Type*) [RealtimeDatabase δ] (rid uid : String) :
    Cell δ (Option Leaf) ℚ RoomOp where
  read db := leafAt db (roomUserTimeRef rid uid)
  block := markBlock
  commit db now := commitMark db rid uid now
  write db op := op.apply db
  read_commit db now := leafAt_commitMark db rid uid now

/-- The block changes a zero only. -/
theorem markBlock_ne {value : Option Leaf} {now : ℚ} (h : markBlock value now ≠ value) :
    value = some (.num 0) ∧ now ≠ 0 := by
  unfold markBlock at h
  split at h
  · rename_i hv
    subst hv
    exact ⟨rfl, by simpa using h⟩
  · exact absurd rfl h

theorem markBlock_of_ne {value : Option Leaf} (h : value ≠ some (.num 0)) (now : ℚ) :
    markBlock value now = value := if_neg h

theorem markBlock_markBlock {value : Option Leaf} {now : ℚ} (h : markBlock value now ≠ value)
    (later : ℚ) : markBlock (markBlock value now) later = markBlock value now := by
  obtain ⟨rfl, hne⟩ := markBlock_ne h
  refine markBlock_of_ne ?_ later
  simpa [markBlock] using hne

variable {κ : Type*} [DecidableEq κ]

/-- The other writes are no creation of the room, no join of the user and no mark. -/
def OtherWrites (rid uid : String) (evs : List (Contention (Option Leaf) ℚ RoomOp κ)) : Prop :=
  ∀ op, .write op ∈ evs → AfterCreate rid op ∧ own rid uid op = false

theorem OtherWrites.keeps {rid uid : String} (hrid : IsKey rid)
    {evs : List (Contention (Option Leaf) ℚ RoomOp κ)} (h : OtherWrites rid uid evs)
    (s : Contended δ (Option Leaf) ℚ κ) :
    Along (timeCell δ rid uid).step (timeCell δ rid uid).Keeps s evs := by
  refine along_iff_split.mpr fun pre e post heq op he => ?_
  obtain ⟨hop, hown⟩ := h op (by rw [heq, he]; simp)
  exact congrFun (userSubtree_frame hrid hop hown _) ["time"]

/-- Every time that a block reads is positive. -/
def Timestamped (s : Contended δ (Option Leaf) ℚ κ)
    (evs : List (Contention (Option Leaf) ℚ RoomOp κ)) : Prop :=
  (∀ k value now, (s.attempts k).run = some (value, now) → 0 < now) ∧
    ∀ k value now, .runBlock k value now ∈ evs → 0 < now

theorem Timestamped.now_pos {rid uid : String} {s : Contended δ (Option Leaf) ℚ κ}
    {evs : List (Contention (Option Leaf) ℚ RoomOp κ)} (h : Timestamped s evs)
    {k : κ} {value : Option Leaf} {now : ℚ}
    (hrun : ((exec (timeCell δ rid uid).step s evs).attempts k).run = some (value, now)) :
    0 < now := by
  rcases Cell.run_exec hrun with hk | hm
  · exact h.1 k value now hk
  · exact h.2 k value now hm

/-! ## First write wins -/

/-- **First write wins.** However the attempts interleave with each other and with other
writes, between two writes of the entry by a creation or a join the time changes at most
once, from zero to the time of one attempt; an absent time stays absent, and a time other
than zero is what every attempt commits, unchanged. -/
theorem first_write_wins {rid uid : String} (hrid : IsKey rid)
    {s : Contended δ (Option Leaf) ℚ κ} {evs : List (Contention (Option Leaf) ℚ RoomOp κ)}
    (hother : OtherWrites rid uid evs) :
    count (timeCell δ rid uid).step (timeCell δ rid uid).changes s evs ≤ 1 ∧
    (∀ pre e post, evs = pre ++ e :: post →
      (timeCell δ rid uid).changes (exec (timeCell δ rid uid).step s pre) e = true →
      ∃ k now, e = .compare k ∧
        (exec (timeCell δ rid uid).step s pre).attempts k =
          ⟨some (some (.num 0), now), false⟩ ∧
        leafAt (exec (timeCell δ rid uid).step s pre).store (roomUserTimeRef rid uid) =
          some (.num 0) ∧
        leafAt (exec (timeCell δ rid uid).step s (pre ++ [e])).store (roomUserTimeRef rid uid) =
          some (.num now) ∧
        now ≠ 0 ∧ (Timestamped s evs → 0 < now)) ∧
    (leafAt s.store (roomUserTimeRef rid uid) = none →
      leafAt (exec (timeCell δ rid uid).step s evs).store (roomUserTimeRef rid uid) = none) ∧
    (leafAt s.store (roomUserTimeRef rid uid) ≠ some (.num 0) →
      leafAt (exec (timeCell δ rid uid).step s evs).store (roomUserTimeRef rid uid) =
        leafAt s.store (roomUserTimeRef rid uid) ∧
      ∀ pre e post k, evs = pre ++ e :: post →
        ((exec (timeCell δ rid uid).step s pre).attempts k).committed = false →
        ((exec (timeCell δ rid uid).step s (pre ++ [e])).attempts k).committed = true →
        ∃ now, (exec (timeCell δ rid uid).step s pre).attempts k =
            ⟨some (leafAt s.store (roomUserTimeRef rid uid), now), false⟩ ∧
          markBlock (leafAt s.store (roomUserTimeRef rid uid)) now =
            leafAt s.store (roomUserTimeRef rid uid)) := by
  have hkeeps := hother.keeps hrid s
  have hfixed : leafAt s.store (roomUserTimeRef rid uid) ≠ some (.num 0) →
      ∀ pre, pre <+: evs →
        leafAt (exec (timeCell δ rid uid).step s pre).store (roomUserTimeRef rid uid) =
          leafAt s.store (roomUserTimeRef rid uid) := by
    intro hne pre hpre
    obtain ⟨post, rfl⟩ := hpre
    exact Cell.read_exec_of_fixed (Along.append.mp hkeeps).1 fun now => markBlock_of_ne hne now
  refine ⟨Cell.count_changes_le_one hkeeps fun v i j h => markBlock_markBlock h j, ?_, ?_, ?_⟩
  · intro pre e post heq hc
    subst heq
    have hk := (Along.append.mp hkeeps).2.1
    obtain ⟨k, now, he, hatt, hv, hne⟩ := Cell.changes_cases hk hc
    obtain ⟨hzero, hnow⟩ := markBlock_ne hne
    have hread : leafAt (exec (timeCell δ rid uid).step s pre).store (roomUserTimeRef rid uid) =
        some (.num 0) := hzero
    rw [exec_concat]
    refine ⟨k, now, he, ?_, hread, ?_, hnow, ?_⟩
    · rw [hatt]
      exact congrArg (fun v => Attempt.mk (some (v, now)) false) hread
    · refine hv.trans ?_
      rw [hzero]
      rfl
    · intro hstamp
      have hpre : Timestamped s pre :=
        ⟨hstamp.1, fun j v n hm => hstamp.2 j v n (List.mem_append_left _ hm)⟩
      exact hpre.now_pos (congrArg Attempt.run hatt)
  · intro hnone
    rw [hfixed (by rw [hnone]; exact Option.some_ne_none _ |>.symm) evs List.prefix_rfl, hnone]
  · intro hne
    refine ⟨hfixed hne evs List.prefix_rfl, ?_⟩
    intro pre e post k heq hopen hclosed
    rw [exec_concat] at hclosed
    obtain ⟨-, now, hatt⟩ := Cell.commit_cases hopen hclosed
    refine ⟨now, ?_, markBlock_of_ne hne now⟩
    rw [hatt]
    exact congrArg (fun v => Attempt.mk (some (v, now)) false)
      (hfixed hne pre (heq ▸ List.prefix_append _ _))

/-! ## The transactions of a client -/

/-- The transactions of a client as attempts; past the last one, attempts that are over. -/
def Client.attempts (c : Client) (k : ℕ) : Attempt (Option Leaf) ℚ :=
  match c.transactions[k]? with
  | some t => ⟨t.run, t.committed⟩
  | none => ⟨none, true⟩

theorem Client.attempts_set {c : Client} {k : ℕ} {t : Transaction}
    (hk : c.transactions[k]? = some t) (t' : Transaction) :
    attempts { c with transactions := c.transactions.set k t' } =
      Function.update c.attempts k ⟨t'.run, t'.committed⟩ := by
  obtain ⟨hlt, -⟩ := List.getElem?_eq_some_iff.mp hk
  funext j
  unfold attempts
  by_cases hj : j = k
  · subst hj
    simp [hlt]
  · simp [hj, List.getElem?_set_ne (Ne.symm hj)]

theorem modify_eq_set {α : Type*} {l : List α} {k : ℕ} {a : α} (h : l[k]? = some a) (f : α → α) :
    l.modify k f = l.set k (f a) := by
  obtain ⟨hlt, rfl⟩ := List.getElem?_eq_some_iff.mp h
  refine List.ext_getElem? fun j => ?_
  rw [List.getElem?_modify, List.getElem?_set]
  by_cases hj : k = j
  · subst hj
    simp [hlt]
  · simp [hj]

/-- A block that a client runs is the block of its attempt. -/
theorem runBlock_refines (db : δ) (c : Client) (rid uid : String) (k : ℕ)
    (currentData : Option Leaf) (now : ℚ) :
    (timeCell δ rid uid).step ⟨db, c.attempts⟩ (.runBlock k currentData now) =
      ⟨db, (c.runBlock k currentData now).attempts⟩ := by
  cases ht : c.transactions[k]? with
  | none =>
    have hlen : c.transactions.length ≤ k := List.getElem?_eq_none_iff.mp ht
    have hsame : c.runBlock k currentData now = c := by
      unfold Client.runBlock
      rw [List.modify_eq_self hlen]
    rw [hsame]
    simp [Cell.step, Client.attempts, ht]
  | some t =>
    have hset : c.runBlock k currentData now = { c with
        transactions := c.transactions.set k
          (if t.committed then t else { t with run := some (currentData, now) }) } := by
      unfold Client.runBlock
      rw [modify_eq_set ht]
    rw [hset, Client.attempts_set ht]
    cases hc : t.committed with
    | true =>
      have hatt : c.attempts k = ⟨t.run, true⟩ := by simp [Client.attempts, ht, hc]
      rw [if_pos rfl, hc, ← hatt, Function.update_eq_self]
      simp [Cell.step, hatt]
    | false =>
      have hatt : c.attempts k = ⟨t.run, false⟩ := by simp [Client.attempts, ht, hc]
      simp [Cell.step, hatt]

/-- A comparison of a client is that of its attempt, for transactions in the room. -/
theorem compare_refines (env : Env δ) {c : Client} {rid : String}
    (hrid : ∀ t ∈ c.transactions, t.rid = rid) (k : ℕ) :
    (timeCell δ rid env.user.uid).step ⟨env.db, c.attempts⟩ (.compare k) =
      ⟨((c.compare env k).op.map fun op => op.apply env.db).getD env.db,
        (c.compare env k).client.attempts⟩ := by
  cases ht : c.transactions[k]? with
  | none => simp [Cell.step, Client.attempts, Client.compare, ht]
  | some t =>
    obtain ⟨rid', task, run, committed⟩ := t
    obtain rfl : rid' = rid := hrid _ (List.mem_of_getElem? ht)
    have hatt : c.attempts k = ⟨run, committed⟩ := by simp [Client.attempts, ht]
    cases run with
    | none => simp [Cell.step, hatt, Client.compare, ht]
    | some run =>
      obtain ⟨value, now⟩ := run
      cases committed with
      | true => simp [Cell.step, hatt, Client.compare, ht]
      | false =>
        simp only [Cell.step, hatt, Client.compare, ht]
        by_cases hv : leafAt env.db (roomUserTimeRef rid' env.user.uid) = value
        · have hread : (timeCell δ rid' env.user.uid).read env.db = value := hv
          rw [if_pos hread, if_pos hv, Client.attempts_set ht]
          rfl
        · have hread : (timeCell δ rid' env.user.uid).read env.db ≠ value := hv
          rw [if_neg hread, if_neg hv, Client.attempts_set ht]
          rfl

end

/-! ## Two devices of one user -/

/-- Ann's entry in the room `-`, and two attempts that have not run. -/
def annJoined : Contended LeafTree (Option Leaf) ℚ Bool where
  store := createAndJoinRoom RealtimeDatabase.empty "-" ⟨60, 5, 0⟩ ⟨"Ann", 0, "uidA"⟩
  attempts _ := ⟨none, false⟩

/-- One attempt runs on a zero, the other on no data at first, and both are compared. -/
def twoAttempts : List (Contention (Option Leaf) ℚ RoomOp Bool) :=
  [.runBlock false (some (.num 0)) 7, .runBlock true none 5, .compare true,
    .runBlock true (some (.num 0)) 5, .write (.startRoom "-" 4), .compare true, .compare false,
    .runBlock false (some (.num 5)) 8, .compare false]

theorem first_write_wins_twoAttempts :
    count (timeCell LeafTree "-" "uidA").step (timeCell LeafTree "-" "uidA").changes annJoined
        twoAttempts ≤ 1 ∧
      leafAt (exec (timeCell LeafTree "-" "uidA").step annJoined twoAttempts).store
        (roomUserTimeRef "-" "uidA") = some (.num 5) := by
  have hother : OtherWrites "-" "uidA" twoAttempts := by
    intro op hm
    have hop : op = .startRoom "-" 4 := by simpa [twoAttempts] using hm
    subst hop
    exact ⟨⟨by decide, by simp⟩, rfl⟩
  exact ⟨(first_write_wins (by decide) hother).1, by decide +kernel⟩

end Unplug.App
