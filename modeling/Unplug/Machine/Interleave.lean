import Unplug.Machine.Run

/-! # Interleavings of independent writers

Each key of a state has its own part and its own inputs. When an input leaves
the parts of other keys alone, and acts on its own key's part by what that part
holds, the part of a key after a run is fixed by the key's own inputs in their
order: how the run interleaves them with the rest cannot be seen. -/
namespace Unplug.Machine

variable {σ ε α κ : Type*} {step : σ → ε → σ}

/-- `own k` picks the inputs of key `k`, `part k` reads its part of the state. -/
structure Independent (step : σ → ε → σ) (own : κ → ε → Bool) (part : κ → σ → α)
    (P : ε → Prop) : Prop where
  frame : ∀ k s e, P e → own k e = false → part k (step s e) = part k s
  reads : ∀ k s t e, P e → own k e = true → part k s = part k t →
    part k (step s e) = part k (step t e)

variable {own : κ → ε → Bool} {part : κ → σ → α} {P : ε → Prop}

theorem Independent.congr (h : Independent step own part P) {k : κ} {s t : σ} {run : List ε}
    (hst : part k s = part k t) (hP : ∀ e ∈ run, P e) :
    part k (exec step s run) = part k (exec step t run) := by
  induction run generalizing s t with
  | nil => exact hst
  | cons e run ih =>
    have he : P e := hP e (List.mem_cons_self)
    refine ih ?_ fun e' he' => hP e' (List.mem_cons_of_mem _ he')
    cases ho : own k e with
    | true => exact h.reads k s t e he ho hst
    | false => rw [h.frame k s e he ho, h.frame k t e he ho, hst]

/-- The part of a key after a run is the one its own inputs alone produce. -/
theorem Independent.exec_own (h : Independent step own part P) {k : κ} {s : σ} {run : List ε}
    (hP : ∀ e ∈ run, P e) :
    part k (exec step s run) = part k (exec step s (run.filter (own k))) := by
  induction run generalizing s with
  | nil => rfl
  | cons e run ih =>
    have he : P e := hP e (List.mem_cons_self)
    have hrest : ∀ e' ∈ run, P e' := fun e' he' => hP e' (List.mem_cons_of_mem _ he')
    cases ho : own k e with
    | true => rw [List.filter_cons_of_pos ho]; exact ih hrest
    | false =>
      rw [List.filter_cons_of_neg (by simp [ho]), ← ih hrest]
      exact h.congr (h.frame k s e he ho) hrest

/-- Two runs that give a key the same inputs in the same order agree on its part. -/
theorem Independent.confluent (h : Independent step own part P) {k : κ} {s : σ}
    {run run' : List ε} (hP : ∀ e ∈ run, P e) (hP' : ∀ e ∈ run', P e)
    (heq : run.filter (own k) = run'.filter (own k)) :
    part k (exec step s run) = part k (exec step s run') := by
  rw [h.exec_own hP, h.exec_own hP', heq]

end Unplug.Machine
