import Unplug.Machine.Run
import Mathlib.Order.Filter.AtTopBot.Finite

/-! # Endless runs

An endless run gives the machine an input at every moment; what holds of its finite
beginnings holds at every moment. `LeadsTo` says what must happen: whenever `P` holds,
`Q` does then or later. It comes from what stays until `Q` and from a step that helps,
which fairness promises, and it chains, also along a count that falls. -/
namespace Unplug.Machine

variable {σ ε : Type*}

/-! ## Beginnings -/

/-- The first `n` inputs of an endless run. -/
def upTo (inputs : ℕ → ε) (n : ℕ) : List ε := (List.range n).map inputs

theorem upTo_succ (inputs : ℕ → ε) (n : ℕ) : upTo inputs (n + 1) = upTo inputs n ++ [inputs n] := by
  simp [upTo, List.range_succ]

/-- Along every beginning of the run each step meets `P`. -/
theorem along_upTo {step : σ → ε → σ} {P : σ → ε → Prop} {s : σ} {inputs : ℕ → ε} :
    (∀ n, Along step P s (upTo inputs n)) ↔ ∀ n, P (exec step s (upTo inputs n)) (inputs n) := by
  constructor
  · intro h n
    have hn := h (n + 1)
    rw [upTo_succ] at hn
    exact (Along.concat.mp hn).2
  · intro h n
    induction n with
    | zero => trivial
    | succ n ih =>
      rw [upTo_succ]
      exact Along.concat.mpr ⟨ih, h n⟩

/-! ## A finite run and what follows it -/

/-- The inputs of a finite run, then those of `rest`. -/
def continued (run : List ε) (rest : ℕ → ε) (n : ℕ) : ε := run[n]?.getD (rest n)

theorem continued_of_le {run : List ε} (rest : ℕ → ε) {n : ℕ} (h : run.length ≤ n) :
    continued run rest n = rest n := by
  rw [continued, List.getElem?_eq_none h, Option.getD_none]

theorem upTo_continued {run : List ε} (rest : ℕ → ε) {n : ℕ} (h : n ≤ run.length) :
    upTo (continued run rest) n = run.take n := by
  induction n with
  | zero => rfl
  | succ n ih =>
    rw [upTo_succ, ih (by omega), List.take_add_one, continued, List.getElem?_eq_getElem h]
    rfl

theorem along_continued {step : σ → ε → σ} {P : σ → ε → Prop} {s : σ} {run : List ε}
    {rest : ℕ → ε} (h : Along step P s run)
    (hrest : ∀ n, run.length ≤ n → P (exec step s (upTo (continued run rest) n)) (rest n)) (n : ℕ) :
    Along step P s (upTo (continued run rest) n) := by
  induction n with
  | zero => trivial
  | succ n ih =>
    rcases Nat.lt_or_ge n run.length with hn | hn
    · rw [upTo_continued rest hn]
      rw [← List.take_append_drop (n + 1) run] at h
      exact (Along.append.mp h).1
    · rw [upTo_succ]
      refine Along.concat.mpr ⟨ih, ?_⟩
      rw [continued_of_le rest hn]
      exact hrest n hn

/-! ## Leading to -/

/-- Whenever `P` holds, `Q` holds at that moment or a later one. -/
def LeadsTo (P Q : ℕ → Prop) : Prop := ∀ n, P n → ∃ m, n ≤ m ∧ Q m

variable {P P' Q R : ℕ → Prop}

theorem LeadsTo.of_imp (h : ∀ n, P n → Q n) : LeadsTo P Q := fun n hn => ⟨n, le_rfl, h n hn⟩

theorem LeadsTo.trans (hpq : LeadsTo P Q) (hqr : LeadsTo Q R) : LeadsTo P R := by
  intro n hn
  obtain ⟨m, hnm, hm⟩ := hpq n hn
  obtain ⟨k, hmk, hk⟩ := hqr m hm
  exact ⟨k, hnm.trans hmk, hk⟩

theorem LeadsTo.or (hp : LeadsTo P R) (hq : LeadsTo Q R) : LeadsTo (fun n => P n ∨ Q n) R := by
  intro n hn
  rcases hn with hn | hn
  · exact hp n hn
  · exact hq n hn

/-- What every moment keeps, unless `Q` comes, lasts until `Q` comes. -/
theorem lasts_until (hkeep : ∀ n, P n → P (n + 1) ∨ Q (n + 1)) {n m : ℕ} (hnm : n ≤ m) (hn : P n) :
    P m ∨ ∃ k, n < k ∧ k ≤ m ∧ Q k := by
  induction m, hnm using Nat.le_induction with
  | base => exact .inl hn
  | succ m hnm ih =>
    rcases ih with hm | ⟨k, hnk, hkm, hk⟩
    · rcases hkeep m hm with hm | hm
      · exact .inl hm
      · exact .inr ⟨m + 1, by omega, le_rfl, hm⟩
    · exact .inr ⟨k, hnk, by omega, hk⟩

/-- **Progress by a helpful step.** What lasts until `Q`, and is always followed by a
step that brings `Q` about while it lasts, leads to `Q`. -/
theorem leadsTo_of_helpful {H : ℕ → Prop} (hkeep : ∀ n, P n → P (n + 1) ∨ Q (n + 1))
    (hfair : ∀ n, P n → ∃ m, n ≤ m ∧ (Q m ∨ H m))
    (hdone : ∀ n, P n → H n → Q (n + 1)) : LeadsTo P Q := by
  intro n hn
  obtain ⟨m, hnm, hm⟩ := hfair n hn
  rcases lasts_until hkeep hnm hn with hp | ⟨k, hnk, -, hk⟩
  · rcases hm with hq | hhelp
    · exact ⟨m, hnm, hq⟩
    · exact ⟨m + 1, by omega, hdone m hp hhelp⟩
  · exact ⟨k, hnk.le, hk⟩

/-- What leads to `Q` or to itself with a smaller count leads to `Q`. -/
theorem leadsTo_of_descent {P : ℕ → ℕ → Prop}
    (h : ∀ k, LeadsTo (P k) fun n => Q n ∨ ∃ j, j < k ∧ P j n) (k : ℕ) : LeadsTo (P k) Q := by
  induction k using Nat.strong_induction_on with
  | h k ih =>
    intro n hn
    obtain ⟨m, hnm, hm⟩ := h k n hn
    rcases hm with hq | ⟨j, hjk, hj⟩
    · exact ⟨m, hnm, hq⟩
    · obtain ⟨l, hml, hl⟩ := ih j hjk m hj
      exact ⟨l, hnm.trans hml, hl⟩

/-! ## For ever -/

/-- What a moment has and every later moment keeps holds from then on. -/
theorem eventually_of_stable {n : ℕ} (hn : P n) (hkeep : ∀ m, n ≤ m → P m → P (m + 1)) :
    ∀ᶠ m in Filter.atTop, P m := by
  refine Filter.eventually_atTop.mpr ⟨n, fun m hnm => ?_⟩
  induction m, hnm using Nat.le_induction with
  | base => exact hn
  | succ m hnm ih => exact hkeep m hnm ih

end Unplug.Machine
