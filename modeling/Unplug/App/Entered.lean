import Unplug.App.Follows
import Unplug.App.Server

/-! # The rooms a client has to do with

Every rid in a client, in the global, a check, a transaction or an observer,
came from a positive answer to a create or a join. What holds of a room when the
server answers, and stays true of it, therefore holds of all of them. -/
namespace Unplug.App
open Unplug.Store Unplug.Firebase Unplug.Machine RealtimeDatabase

namespace Client
section
variable {δ : Type*} [RealtimeDatabase δ] {c : Client}

/-- `P` holds of every room the client has to do with, as of the server states
it has been told of; of a room it was just let into, as of the answer's. -/
structure Entered (P : String → ℕ → Prop) (c : Client) : Prop where
  current : ∀ r, c.currentRID = some r → P r c.seen
  acks : ∀ w n, (w, some n) ∈ c.acks → opens w.op = true → P w.op.rid n
  checks : ∀ ch ∈ c.checks, P ch.rid c.seen
  transactions : ∀ t ∈ c.transactions, P t.rid c.seen
  observed : ∀ vc r, c.stats = some vc → vc.observedRID = some r → P r c.seen
  observers : ∀ o ∈ c.observers, ∃ r, o.At r ∧ P r c.seen

theorem entered_launch (P : String → ℕ → Prop) : Entered P launch where
  current _ h := by cases h
  acks _ _ h := (List.not_mem_nil h).elim
  checks _ h := (List.not_mem_nil h).elim
  transactions _ h := (List.not_mem_nil h).elim
  observed _ _ h := by cases h
  observers _ h := (List.not_mem_nil h).elim

/-- All that a step adds is of the current room, so `P` need only hold of the
room of a write when the server accepts it. -/
theorem Entered.step {P Q : String → ℕ → Prop} (h : c.Entered P) (env : Env δ) (e : ClientEvent)
    (hmono : ∀ r n m, n ≤ m → P r n → Q r m)
    (hdeliver : ∀ w rest, e = .deliverWrite true → c.outbox = w :: rest → opens w.op = true →
      Q w.op.rid env.history.length) : (c.step env e).client.Entered Q := by
  have hacks : ∀ w n, (w, some n) ∈ (c.step env e).client.acks → opens w.op = true →
      Q w.op.rid n := by
    intro w n hm ho
    rcases acks_step env e hm with hm | ⟨w', rest, accepted, he, hout, heq⟩
    · exact hmono _ _ _ le_rfl (h.acks w n hm ho)
    · cases accepted with
      | false => cases heq
      | true =>
        cases heq
        exact hdeliver w rest he hout ho
  by_cases hl : e = .relaunch
  · subst hl
    exact entered_launch Q
  have hseen := seen_step (c := c) env hl
  by_cases ha : e = .ack
  · subst ha
    have hold : ∀ {c' : Client}, c.seen ≤ c'.seen → c'.acks = c.ack.acks →
        (∀ r, c'.currentRID = some r → Q r c'.seen) → c'.checks = c.checks →
        c'.transactions = c.transactions → c'.observers = c.observers → c'.stats = c.stats →
        c'.Entered Q := by
      intro c' hs hak hcur hch htr hob hst
      refine ⟨hcur, fun w n hm => hacks w n (hak ▸ hm), fun ch hm => ?_, fun t hm => ?_,
        fun vc r hv hr => ?_, fun o hm => ?_⟩
      · exact hmono _ _ _ hs (h.checks ch (hch ▸ hm))
      · exact hmono _ _ _ hs (h.transactions t (htr ▸ hm))
      · exact hmono _ _ _ hs (h.observed vc r (hst ▸ hv) hr)
      · obtain ⟨r, hat, hp⟩ := h.observers o (hob ▸ hm)
        exact ⟨r, hat, hmono _ _ _ hs hp⟩
    simp only [Client.step] at hseen ⊢
    rcases ack_cases c with ⟨-, hack⟩ | ⟨w, answer, rest, -, -, hack⟩ |
      ⟨w, n, rest, bet, hm, ho, -, hack⟩
    · rw [hack] at hseen ⊢
      exact hold hseen (by rw [hack]) (fun r hr => hmono _ _ _ hseen (h.current r hr)) rfl rfl rfl
        rfl
    · rw [hack] at hseen ⊢
      exact hold hseen (by rw [hack]) (fun r hr => hmono _ _ _ hseen (h.current r hr)) rfl rfl rfl
        rfl
    · have hparts : ∀ {c₀ : Client} {s b}, (c₀.presentLobby s b).observers = c₀.observers ∧
          (c₀.presentLobby s b).stats = c₀.stats := by
        intro c₀ s b
        unfold presentLobby present
        split <;> exact ⟨rfl, rfl⟩
      rw [hack] at hseen ⊢
      refine hold hseen (by rw [hack]) (fun r hr => ?_) (checks_presentLobby _ _)
        (transactions_presentLobby _ _) hparts.1 hparts.2
      rw [currentRID_presentLobby] at hr
      rw [seen_presentLobby]
      cases hr
      exact hmono _ _ _ (le_max_right c.seen n)
        (h.acks w n (by rw [hm]; exact List.mem_cons_self) ho)
  · have hf := follows_step (c := c) env ha hl
    have hcur : ∀ {r}, c.currentRID = some r → Q r (c.step env e).client.seen := fun hr =>
      hmono _ _ _ hseen (h.current _ hr)
    refine ⟨fun r hr => hcur (hf.rid ▸ hr), hacks, fun ch hm => ?_, fun t hm => ?_,
      fun vc r hv hr => ?_, fun o hm => ?_⟩
    · rcases hf.checks ch hm with hm | hr
      · exact hmono _ _ _ hseen (h.checks ch hm)
      · exact hcur hr
    · rcases hf.transactions t hm with ⟨t₀, hm₀, he⟩ | ⟨ch, hm₀, he⟩
      · exact he ▸ hmono _ _ _ hseen (h.transactions t₀ hm₀)
      · exact he ▸ hmono _ _ _ hseen (h.checks ch hm₀)
    · rcases hf.observed vc r hv hr with ⟨vc₀, hv₀, hr₀⟩ | hr
      · exact hmono _ _ _ hseen (h.observed vc₀ r hv₀ hr₀)
      · exact hcur hr
    · rcases hf.observers o hm with hm | ⟨r, hr, hat⟩
      · obtain ⟨r, hat, hp⟩ := h.observers o hm
        exact ⟨r, hat, hmono _ _ _ hseen hp⟩
      · exact ⟨r, hat, hcur hr⟩

theorem Entered.mono {P Q : String → ℕ → Prop} (h : c.Entered P)
    (hpq : ∀ r n, P r n → Q r n) : c.Entered Q where
  current r hr := hpq _ _ (h.current r hr)
  acks w n hm ho := hpq _ _ (h.acks w n hm ho)
  checks ch hm := hpq _ _ (h.checks ch hm)
  transactions t hm := hpq _ _ (h.transactions t hm)
  observed vc r hv hr := hpq _ _ (h.observed vc r hv hr)
  observers o hm := by
    obtain ⟨r, hat, hp⟩ := h.observers o hm
    exact ⟨r, hat, hpq _ _ hp⟩

end
end Client

end Unplug.App
