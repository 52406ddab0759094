import Unplug.Machine.Run
import Mathlib.Logic.Function.Basic

/-! # Optimistic transactions on one cell of a store

Any number of attempts run a block on values that they have at hand, and hand the store
the value they ran on. The store commits the block where that value is its own, and has
the block run again where it is not. So a commit is the block's effect on the current
value, however the attempts interleave: a value that the block leaves alone stays, and
where the block makes only such values the cell changes once. -/
namespace Unplug.Machine

/-- A cell of the store, the block on its values, what committing the block does to the
store, and the other writes. -/
structure Cell (σ V I W : Type*) where
  read : σ → V
  block : V → I → V
  commit : σ → I → σ
  write : σ → W → σ
  read_commit : ∀ s i, read (commit s i) = block (read s) i

/-- An attempt: the value and the input its block last ran on, until it is committed. -/
structure Attempt (V I : Type*) where
  run : Option (V × I)
  committed : Bool
  deriving DecidableEq

structure Contended (σ V I κ : Type*) where
  store : σ
  attempts : κ → Attempt V I

inductive Contention (V I W κ : Type*)
  | runBlock (k : κ) (value : V) (input : I)
  | compare (k : κ)
  | write (w : W)
  deriving DecidableEq

section
variable {σ V I W κ : Type*} [DecidableEq V] [DecidableEq κ]

def Cell.step (C : Cell σ V I W) (s : Contended σ V I κ) : Contention V I W κ → Contended σ V I κ
  | .runBlock k value input =>
    if (s.attempts k).committed then s
    else { s with attempts := Function.update s.attempts k ⟨some (value, input), false⟩ }
  | .compare k => match s.attempts k with
    | ⟨some (value, input), false⟩ =>
      if C.read s.store = value then
        { store := C.commit s.store input
          attempts := Function.update s.attempts k ⟨some (value, input), true⟩ }
      else { s with attempts := Function.update s.attempts k ⟨none, false⟩ }
    | _ => s
  | .write w => { s with store := C.write s.store w }

/-- The step, if it is another write, leaves the cell alone. -/
def Cell.Keeps (C : Cell σ V I W) (s : Contended σ V I κ) (e : Contention V I W κ) : Prop :=
  ∀ w, e = .write w → C.read (C.write s.store w) = C.read s.store

def Cell.changes (C : Cell σ V I W) (s : Contended σ V I κ) (e : Contention V I W κ) : Bool :=
  decide (C.read (C.step s e).store ≠ C.read s.store)

variable {C : Cell σ V I W} {s : Contended σ V I κ} {e : Contention V I W κ}

/-- **What a step can do to the cell**: nothing, or the block of an attempt that ran on
the current value. -/
theorem Cell.read_step (h : C.Keeps s e) :
    C.read (C.step s e).store = C.read s.store ∨
      ∃ k input, e = .compare k ∧ s.attempts k = ⟨some (C.read s.store, input), false⟩ ∧
        (C.step s e).attempts k = ⟨some (C.read s.store, input), true⟩ ∧
        C.read (C.step s e).store = C.block (C.read s.store) input := by
  cases e with
  | runBlock k value input =>
    left
    simp only [Cell.step]
    split <;> rfl
  | write w => exact .inl (h w rfl)
  | compare k =>
    simp only [Cell.step]
    split
    · rename_i value input hk
      split
      · rename_i hv
        subst hv
        exact .inr ⟨k, input, rfl, hk, by simp, C.read_commit _ _⟩
      · exact .inl rfl
    · exact .inl rfl

theorem Cell.changes_cases (h : C.Keeps s e) (hc : C.changes s e = true) :
    ∃ k input, e = .compare k ∧ s.attempts k = ⟨some (C.read s.store, input), false⟩ ∧
      C.read (C.step s e).store = C.block (C.read s.store) input ∧
      C.block (C.read s.store) input ≠ C.read s.store := by
  have hne : C.read (C.step s e).store ≠ C.read s.store := of_decide_eq_true hc
  rcases C.read_step h with hsame | ⟨k, input, he, hk, -, hv⟩
  · exact absurd hsame hne
  · exact ⟨k, input, he, hk, hv, hv ▸ hne⟩

/-- A step that commits an attempt has the block run on the current value. -/
theorem Cell.commit_cases {k : κ} (h : (s.attempts k).committed = false)
    (hc : ((C.step s e).attempts k).committed = true) :
    e = .compare k ∧ ∃ input, s.attempts k = ⟨some (C.read s.store, input), false⟩ := by
  cases e with
  | write w => rw [show (C.step s (.write w)).attempts = s.attempts from rfl, h] at hc; cases hc
  | runBlock j value input =>
    simp only [Cell.step] at hc
    split at hc
    · rw [h] at hc
      cases hc
    · by_cases hj : k = j
      · subst hj
        simp at hc
      · simp [Function.update_of_ne hj, h] at hc
  | compare j =>
    simp only [Cell.step] at hc
    split at hc
    · rename_i value input hk
      split at hc
      · rename_i hv
        subst hv
        by_cases hj : k = j
        · subst hj
          exact ⟨rfl, input, hk⟩
        · simp [Function.update_of_ne hj, h] at hc
      · by_cases hj : k = j
        · subst hj
          simp at hc
        · simp [Function.update_of_ne hj, h] at hc
    · rw [h] at hc
      cases hc

/-- What an attempt ran on, it ran on before or runs on now. -/
theorem Cell.run_step {k : κ} {value : V} {input : I}
    (h : ((C.step s e).attempts k).run = some (value, input)) :
    (s.attempts k).run = some (value, input) ∨ e = .runBlock k value input := by
  cases e with
  | write w => exact .inl h
  | runBlock j value' input' =>
    simp only [Cell.step] at h
    split at h
    · exact .inl h
    · by_cases hj : k = j
      · subst hj
        simp only [Function.update_self, Option.some.injEq, Prod.mk.injEq] at h
        exact .inr (by rw [h.1, h.2])
      · simp only [Function.update_of_ne hj] at h
        exact .inl h
  | compare j =>
    simp only [Cell.step] at h
    split at h
    · rename_i value' input' hk
      by_cases hj : k = j
      · subst hj
        split at h
        · simp only [Function.update_self, Option.some.injEq, Prod.mk.injEq] at h
          exact .inl (by rw [hk, h.1, h.2])
        · simp at h
      · split at h
        · simp only [Function.update_of_ne hj] at h
          exact .inl h
        · simp only [Function.update_of_ne hj] at h
          exact .inl h
    · exact .inl h

/-! ## Runs -/

variable {run : List (Contention V I W κ)}

/-- What an attempt ran on, it started with or was given in the run. -/
theorem Cell.run_exec {k : κ} {value : V} {input : I}
    (h : ((exec C.step s run).attempts k).run = some (value, input)) :
    (s.attempts k).run = some (value, input) ∨ .runBlock k value input ∈ run := by
  induction run using List.reverseRecOn with
  | nil => exact .inl h
  | append_singleton run e ih =>
    rw [exec_concat] at h
    rcases C.run_step h with h | rfl
    · exact (ih h).imp_right fun hm => List.mem_append_left _ hm
    · exact .inr (by simp)

/-- **A value that the block leaves alone stays.** -/
theorem Cell.read_exec_of_fixed (hkeeps : Along C.step C.Keeps s run)
    (hfixed : ∀ input, C.block (C.read s.store) input = C.read s.store) :
    C.read (exec C.step s run).store = C.read s.store := by
  refine exec_invariant (I := fun t : Contended σ V I κ => C.read t.store = C.read s.store) rfl
    (fun t e hi hp => ?_) hkeeps
  rcases C.read_step hp with hsame | ⟨k, input, -, -, -, hv⟩
  · exact hsame.trans hi
  · rw [hv, hi]
    exact hfixed input

theorem Cell.count_changes_of_fixed (hkeeps : Along C.step C.Keeps s run)
    (hfixed : ∀ input, C.block (C.read s.store) input = C.read s.store) :
    count C.step C.changes s run = 0 := by
  induction run generalizing s with
  | nil => rfl
  | cons e run ih =>
    have hone : Along C.step C.Keeps s [e] := ⟨hkeeps.1, trivial⟩
    have hsame : C.read (C.step s e).store = C.read s.store := C.read_exec_of_fixed hone hfixed
    have hno : C.changes s e = false := decide_eq_false fun hne => hne hsame
    rw [count, hno, ih hkeeps.2 (by rw [hsame]; exact hfixed)]
    rfl

/-- **The cell changes at most once**, where the block makes only values that it leaves
alone. -/
theorem Cell.count_changes_le_one (hkeeps : Along C.step C.Keeps s run)
    (hblock : ∀ v i j, C.block v i ≠ v → C.block (C.block v i) j = C.block v i) :
    count C.step C.changes s run ≤ 1 := by
  induction run generalizing s with
  | nil => exact Nat.zero_le _
  | cons e run ih =>
    rw [count]
    cases hc : C.changes s e with
    | false => exact (Nat.zero_add _).trans_le (ih hkeeps.2)
    | true =>
      obtain ⟨k, input, -, -, hv, hne⟩ := C.changes_cases hkeeps.1 hc
      have hzero := C.count_changes_of_fixed hkeeps.2 fun j => by
        rw [hv]
        exact hblock _ _ _ hne
      rw [hzero]
      rfl

end

end Unplug.Machine
