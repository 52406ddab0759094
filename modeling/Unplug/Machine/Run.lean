import Mathlib.Data.List.Induction
import Mathlib.Data.List.Infix
import Mathlib.Data.List.Perm.Basic

/-! # Runs of a machine that takes one input at a time

A machine is a state and a total step; a run is the list of inputs it took.
`Along` is the run whose every step met a condition, which may read the input
and the state before the step: the environment's promises and the conditions on
a user's actions are stated with it. The two invariant rules carry a property
along such a run, the second one with the inputs taken so far in hand. -/
namespace Unplug.Machine

variable {σ ε : Type*} {step : σ → ε → σ}

/-- The state after a run. -/
def exec (step : σ → ε → σ) (s : σ) (run : List ε) : σ := run.foldl step s

@[simp] theorem exec_nil (s : σ) : exec step s [] = s := rfl

@[simp] theorem exec_cons (s : σ) (e : ε) (run : List ε) :
    exec step s (e :: run) = exec step (step s e) run := rfl

theorem exec_append (s : σ) (run rest : List ε) :
    exec step s (run ++ rest) = exec step (exec step s run) rest := List.foldl_append

theorem exec_concat (s : σ) (run : List ε) (e : ε) :
    exec step s (run ++ [e]) = step (exec step s run) e := by
  rw [exec_append]; rfl

/-- Every step of the run meets `P`, read at the state before the step. -/
def Along (step : σ → ε → σ) (P : σ → ε → Prop) : σ → List ε → Prop
  | _, [] => True
  | s, e :: run => P s e ∧ Along step P (step s e) run

instance Along.decidable {P : σ → ε → Prop} [∀ s e, Decidable (P s e)] :
    ∀ (s : σ) (run : List ε), Decidable (Along step P s run)
  | _, [] => inferInstanceAs (Decidable True)
  | s, e :: run =>
    letI := Along.decidable (P := P) (step s e) run
    inferInstanceAs (Decidable (P s e ∧ Along step P (step s e) run))

theorem Along.append {P : σ → ε → Prop} {s : σ} {run rest : List ε} :
    Along step P s (run ++ rest) ↔ Along step P s run ∧ Along step P (exec step s run) rest := by
  induction run generalizing s with
  | nil => simp [Along]
  | cons e run ih => simp [Along, ih, and_assoc]

theorem Along.concat {P : σ → ε → Prop} {s : σ} {run : List ε} {e : ε} :
    Along step P s (run ++ [e]) ↔ Along step P s run ∧ P (exec step s run) e := by
  rw [Along.append]; simp [Along]

theorem Along.mono {P Q : σ → ε → Prop} (hpq : ∀ s e, P s e → Q s e) {s : σ} {run : List ε}
    (h : Along step P s run) : Along step Q s run := by
  induction run generalizing s with
  | nil => trivial
  | cons e run ih => exact ⟨hpq _ _ h.1, ih h.2⟩

/-- A run meets `P` when each of its steps, cut out of the run, does. -/
theorem along_iff_split {P : σ → ε → Prop} {s : σ} {run : List ε} :
    Along step P s run ↔ ∀ pre e post, run = pre ++ e :: post → P (exec step s pre) e := by
  constructor
  · intro h pre e post heq
    subst heq
    exact (Along.append.mp h).2.1
  · intro h
    induction run generalizing s with
    | nil => trivial
    | cons e run ih =>
      refine ⟨h [] e run rfl, ih fun pre e' post he => ?_⟩
      exact h (e :: pre) e' post (by rw [he]; rfl)

theorem along_true (s : σ) (run : List ε) : Along step (fun _ _ => True) s run :=
  along_iff_split.mpr fun _ _ _ _ => trivial

/-- What holds at every cut of a longer run holds at every cut of the run before and at
its end. -/
theorem forall_split_concat {Q : List ε → ε → Prop} {run : List ε} {e : ε} :
    (∀ pre e' post, run ++ [e] = pre ++ e' :: post → Q pre e') ↔
      (∀ pre e' post, run = pre ++ e' :: post → Q pre e') ∧ Q run e := by
  constructor
  · intro h
    refine ⟨fun pre e' post heq => h pre e' (post ++ [e]) ?_, h run e [] rfl⟩
    rw [heq]
    simp
  · intro h pre e' post heq
    rcases List.eq_nil_or_concat post with rfl | ⟨post, e'', rfl⟩
    · obtain ⟨rfl, he⟩ := List.append_inj' heq rfl
      cases he
      exact h.2
    · have heq' : run ++ [e] = (pre ++ e' :: post) ++ [e''] := by
        rw [heq]
        simp
      obtain ⟨rfl, -⟩ := List.append_inj' heq' rfl
      exact h.1 pre e' post rfl

/-- A property of the inputs so far and the state, kept by every step that
meets `P`, holds at the end of a run that meets `P`. -/
theorem trace_invariant {P : σ → ε → Prop} {I : List ε → σ → Prop} {s : σ}
    (h0 : I [] s)
    (hstep : ∀ pre e, I pre (exec step s pre) → P (exec step s pre) e →
      I (pre ++ [e]) (step (exec step s pre) e))
    {run : List ε} (h : Along step P s run) : I run (exec step s run) := by
  induction run using List.reverseRecOn with
  | nil => exact h0
  | append_singleton run e ih =>
    obtain ⟨hrun, he⟩ := Along.concat.mp h
    rw [exec_concat]
    exact hstep run e (ih hrun) he

/-- The rule without the inputs: what a state satisfies, step by step. -/
theorem exec_invariant {P : σ → ε → Prop} {I : σ → Prop} {s : σ}
    (h0 : I s) (hstep : ∀ s e, I s → P s e → I (step s e))
    {run : List ε} (h : Along step P s run) : I (exec step s run) :=
  trace_invariant (I := fun _ s => I s) h0 (fun _ _ hi hp => hstep _ _ hi hp) h

instance decidablePrefixes {P : List ε → Prop} [DecidablePred P] (run : List ε) :
    Decidable (∀ pre, pre <+: run → P pre) :=
  decidable_of_iff (∀ pre ∈ run.inits, P pre) (by simp only [List.mem_inits])

/-! ## Counting steps -/

/-- What is taken out of a list was counted in it. -/
theorem countP_eraseIdx {α : Type*} {l : List α} {k : ℕ} {a : α} (h : l[k]? = some a)
    (p : α → Bool) : (l.eraseIdx k).countP p + (p a).toNat = l.countP p := by
  obtain ⟨hk, rfl⟩ := List.getElem?_eq_some_iff.mp h
  rw [← (List.getElem_cons_eraseIdx_perm hk).countP_eq p, List.countP_cons]
  cases p l[k] <;> rfl

/-- How many steps of the run meet `p`, read at the state before the step. -/
def count (step : σ → ε → σ) (p : σ → ε → Bool) : σ → List ε → ℕ
  | _, [] => 0
  | s, e :: run => (p s e).toNat + count step p (step s e) run

theorem count_concat {p : σ → ε → Bool} {s : σ} {run : List ε} {e : ε} :
    count step p s (run ++ [e]) =
      count step p s run + (p (exec step s run) e).toNat := by
  induction run generalizing s with
  | nil => simp [count]
  | cons e' run ih => simp only [List.cons_append, count, ih, exec_cons]; omega

@[simp] theorem count_false (s : σ) (run : List ε) : count step (fun _ _ => false) s run = 0 := by
  induction run generalizing s with
  | nil => rfl
  | cons e run ih => exact (Nat.zero_add _).trans (ih _)

/-- An amount that each step meeting `p` raises and each step meeting `q` lowers
comes out by the difference of the two counts. -/
theorem ledger_exec {p q : σ → ε → Bool} {f : σ → ℕ} {s : σ} {run : List ε}
    (h : ∀ pre e post, run = pre ++ e :: post →
      f (step (exec step s pre) e) + (q (exec step s pre) e).toNat =
        f (exec step s pre) + (p (exec step s pre) e).toNat) :
    f (exec step s run) + count step q s run = f s + count step p s run := by
  induction run using List.reverseRecOn with
  | nil => rfl
  | append_singleton run e ih =>
    have hlast := h run e [] rfl
    have hrun := ih fun pre e' post he => h pre e' (post ++ [e]) (by rw [he]; simp)
    rw [exec_concat, count_concat, count_concat]
    omega

theorem count_le {p q : σ → ε → Bool} (hqp : ∀ s e, q s e = true → p s e = true) (s : σ)
    (run : List ε) : count step q s run ≤ count step p s run := by
  induction run generalizing s with
  | nil => exact le_rfl
  | cons e run ih =>
    refine Nat.add_le_add ?_ (ih _)
    cases hq : q s e with
    | false => exact Nat.zero_le _
    | true => rw [hqp s e hq]

/-- Of two conditions, one stronger, a run counts as many steps exactly if each step
that meets the weaker one meets the stronger. -/
theorem count_eq_iff {p q : σ → ε → Bool} (hqp : ∀ s e, q s e = true → p s e = true) {s : σ}
    {run : List ε} : count step p s run = count step q s run ↔
      Along step (fun s e => p s e = true → q s e = true) s run := by
  induction run generalizing s with
  | nil => exact iff_of_true rfl trivial
  | cons e run ih =>
    have hle : count step q (step s e) run ≤ count step p (step s e) run := count_le hqp _ _
    simp only [count, Along, ← ih]
    cases hp : p s e with
    | false =>
      have hq : q s e = false := by
        cases hq : q s e with
        | false => rfl
        | true => rw [hqp s e hq] at hp; cases hp
      simp [hq]
    | true =>
      cases q s e with
      | true => simp
      | false =>
        simp only [Bool.toNat_true, Bool.toNat_false]
        constructor
        · intro h
          omega
        · intro h
          exact absurd (h.1 trivial) (by simp)

/-! ## What a run lets out -/

/-- The outputs of a run's steps, in order. -/
def outputs {β : Type*} (step : σ → ε → σ) (f : σ → ε → Option β) : σ → List ε → List β
  | _, [] => []
  | s, e :: run => (f s e).toList ++ outputs step f (step s e) run

theorem outputs_concat {β : Type*} {f : σ → ε → Option β} {s : σ} {run : List ε} {e : ε} :
    outputs step f s (run ++ [e]) = outputs step f s run ++ (f (exec step s run) e).toList := by
  induction run generalizing s with
  | nil => simp [outputs]
  | cons e' run ih => simp only [List.cons_append, outputs, ih, exec_cons, List.append_assoc]

/-- A register that every step with an output sets to it, and no other step
touches, holds the last output. -/
theorem register_exec {β : Type*} {f : σ → ε → Option β} {r : σ → β} {s : σ}
    (h : ∀ s e, r (step s e) = (f s e).getD (r s)) (run : List ε) :
    r (exec step s run) = ((outputs step f s run).getLast?).getD (r s) := by
  induction run using List.reverseRecOn with
  | nil => rfl
  | append_singleton run e ih =>
    rw [exec_concat, outputs_concat, h, ih]
    cases f (exec step s run) e with
    | none => simp
    | some b => simp

end Unplug.Machine
