import Unplug.Machine.Run

/-! # A machine that refines another one

Seen through an abstraction function, each step of the machine is the abstract steps of
what the step lets out. So a run, seen through it, is the abstract run of its outputs. -/
namespace Unplug.Machine

variable {σ τ ε β : Type*}

/-- Where `I` holds and the input meets `P`, the step keeps `I` and is, seen through
`abs`, the abstract step of its output, or none. -/
structure Refines (step : σ → ε → σ) (P : σ → ε → Prop) (I : σ → Prop) (abs : σ → τ)
    (out : σ → ε → Option β) (astep : τ → β → τ) : Prop where
  keeps : ∀ s e, I s → P s e → I (step s e)
  step : ∀ s e, I s → P s e → abs (step s e) = exec astep (abs s) (out s e).toList

variable {step : σ → ε → σ} {P : σ → ε → Prop} {I : σ → Prop} {abs : σ → τ}
  {out : σ → ε → Option β} {astep : τ → β → τ}

/-- **A run refines the run of its outputs.** -/
theorem Refines.exec (h : Refines step P I abs out astep) {s : σ} (hs : I s) {run : List ε}
    (hrun : Along step P s run) :
    abs (exec step s run) = Machine.exec astep (abs s) (outputs step out s run) := by
  induction run generalizing s with
  | nil => rfl
  | cons e run ih =>
    rw [exec_cons, ih (h.keeps s e hs hrun.1) hrun.2, outputs, exec_append, h.step s e hs hrun.1]

/-- The abstract run meets `Q` exactly if each output does, read at the state it came in. -/
theorem Refines.along (h : Refines step P I abs out astep) {Q : τ → β → Prop} {s : σ} (hs : I s)
    {run : List ε} (hrun : Along step P s run) :
    Along astep Q (abs s) (outputs step out s run) ↔
      Along step (fun s e => ∀ b, out s e = some b → Q (abs s) b) s run := by
  induction run generalizing s with
  | nil => exact iff_of_true trivial trivial
  | cons e run ih =>
    have hrest := ih (h.keeps s e hs hrun.1) hrun.2
    rw [h.step s e hs hrun.1] at hrest
    rw [outputs, Along.append, hrest]
    refine and_congr_left fun _ => ?_
    cases hout : out s e with
    | none => simp [Along, hout]
    | some b => simp [Along, hout]

/-- A machine that lets out its inputs. -/
theorem outputs_some (s : σ) (run : List ε) : outputs step (fun _ e => some e) s run = run := by
  induction run generalizing s with
  | nil => rfl
  | cons e run ih => rw [outputs, ih]; rfl

/-- A condition on the inputs alone holds along a run of such inputs. -/
theorem along_of_forall {Q : ε → Prop} {run : List ε} (h : ∀ e ∈ run, Q e) (s : σ) :
    Along step (fun _ e => Q e) s run := by
  induction run generalizing s with
  | nil => trivial
  | cons e run ih =>
    exact ⟨h e List.mem_cons_self, ih (fun e' he' => h e' (List.mem_cons_of_mem _ he')) _⟩

end Unplug.Machine
