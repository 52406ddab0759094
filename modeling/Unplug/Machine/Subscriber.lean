import Unplug.Machine.Run

/-! # A subscriber that never forgets

A store takes writes one after the other. A subscriber is told of states of the store,
none older than one it was told of before, and lays what it sees over what it holds: it
adds and overwrites entries and removes none. It holds the state it was told of last,
neither more nor less, where no write takes an entry out of the store. -/
namespace Unplug.Machine

variable {σ ω κ ν : Type*}

structure Subscriber (ω κ ν : Type*) where
  /-- The writes the store has taken. -/
  log : List ω
  /-- After how many of them the store was in the state told last. -/
  told : ℕ
  held : κ → Option ν

inductive Subscriber.Input (ω : Type*)
  | write (o : ω)
  | tell (i : ℕ)

namespace Subscriber

def step (write : σ → ω → σ) (view : σ → κ → Option ν) (s₀ : σ) (s : Subscriber ω κ ν) :
    Input ω → Subscriber ω κ ν
  | .write o => { s with log := s.log ++ [o] }
  | .tell i =>
    { s with told := i, held := fun k => (view (exec write s₀ (s.log.take i)) k).or (s.held k) }

/-- The writes are of a kind, and no state is told after a newer one. -/
def InOrder (P : ω → Prop) (s : Subscriber ω κ ν) : Input ω → Prop
  | .write o => P o
  | .tell i => s.told ≤ i ∧ i ≤ s.log.length

/-- No write of the kind takes an entry out of the store. -/
def Keeps (write : σ → ω → σ) (view : σ → κ → Option ν) (P : ω → Prop) : Prop :=
  ∀ s o k, P o → view s k ≠ none → view (write s o) k ≠ none

variable {write : σ → ω → σ} {view : σ → κ → Option ν} {P : ω → Prop} {s₀ : σ}

theorem Keeps.exec (h : Keeps write view P) {log : List ω} (hlog : ∀ o ∈ log, P o) {s : σ} {k : κ}
    (hk : view s k ≠ none) : view (exec write s log) k ≠ none := by
  induction log generalizing s with
  | nil => exact hk
  | cons o log ih =>
    refine ih (fun o' ho => hlog o' (List.mem_cons_of_mem _ ho)) ?_
    exact h s o k (hlog o List.mem_cons_self) hk

/-- An entry of an earlier state is in every later one. -/
theorem Keeps.take (h : Keeps write view P) {log : List ω} (hlog : ∀ o ∈ log, P o) {i j : ℕ}
    (hij : i ≤ j) {k : κ} (hk : view (Machine.exec write s₀ (log.take i)) k ≠ none) :
    view (Machine.exec write s₀ (log.take j)) k ≠ none := by
  obtain ⟨d, rfl⟩ := Nat.exists_eq_add_of_le hij
  rw [List.take_add, exec_append]
  exact h.exec (fun o ho => hlog o (List.mem_of_mem_drop (List.mem_of_mem_take ho))) hk

/-- What the subscriber holds is still in the state it was told of last. -/
structure Faithful (write : σ → ω → σ) (view : σ → κ → Option ν) (P : ω → Prop) (s₀ : σ)
    (s : Subscriber ω κ ν) : Prop where
  log : ∀ o ∈ s.log, P o
  told : s.told ≤ s.log.length
  held : ∀ k, s.held k ≠ none → view (exec write s₀ (s.log.take s.told)) k ≠ none

/-- **What is told last is what is held.** -/
theorem Faithful.tell (hkeep : Keeps write view P) {s : Subscriber ω κ ν}
    (h : Faithful write view P s₀ s) {i : ℕ} (hi : s.told ≤ i) :
    (s.step write view s₀ (.tell i)).held = view (exec write s₀ (s.log.take i)) := by
  funext k
  change (view (exec write s₀ (s.log.take i)) k).or (s.held k) = _
  cases hv : view (exec write s₀ (s.log.take i)) k with
  | some v => rfl
  | none =>
    -- an old entry would still be there
    by_contra hheld
    exact hkeep.take h.log hi (h.held k hheld) hv

theorem Faithful.step (hkeep : Keeps write view P) {s : Subscriber ω κ ν}
    (h : Faithful write view P s₀ s) {e : Input ω} (he : InOrder P s e) :
    Faithful write view P s₀ (s.step write view s₀ e) := by
  cases e with
  | write o =>
    refine ⟨?_, ?_, ?_⟩
    · intro o' ho
      rcases List.mem_append.mp ho with ho | ho
      · exact h.log o' ho
      · exact (List.mem_singleton.mp ho) ▸ he
    · exact h.told.trans (by simp [Subscriber.step])
    · intro k hk
      have hold := h.held k hk
      have htake : (s.log ++ [o]).take s.told = s.log.take s.told :=
        List.take_append_of_le_length h.told
      rwa [← htake] at hold
  | tell i =>
    obtain ⟨hi, hlen⟩ := he
    refine ⟨h.log, hlen, ?_⟩
    intro k hk
    rw [h.tell hkeep hi] at hk
    exact hk

end Subscriber

end Unplug.Machine
