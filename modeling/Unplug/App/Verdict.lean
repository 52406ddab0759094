import Unplug.App.GameEnd
import Unplug.App.StatsLife

/-! # The verdict a client shows

The results screen says what the stats controller hands it: a name that the
listener read off a snapshot of the observed room, or none when the timer ended
the game first. -/
namespace Unplug.App
open Unplug.Store Unplug.Firebase Unplug.Machine RealtimeDatabase

namespace Client
section
variable {δ : Type*} [RealtimeDatabase δ] {c : Client}

/-! ## The results screen -/

theorem results_performToResults (vc : RoomStatsViewController) :
    (c.performToResults vc).results = c.results ∨
      (c.screens.head? = some .stats ∧
        (c.performToResults vc).screens.head? = some .results ∧
        (c.performToResults vc).results = some ⟨vc.loserName, vc.betAmount⟩) := by
  unfold performToResults present
  split
  · rename_i hfront
    exact .inr ⟨hfront, rfl, rfl⟩
  · exact .inl rfl

theorem results_appear : c.appear.results = c.results :=
  appear_keeps Client.results fun _ _ _ _ _ => rfl

theorem results_performRoomStats (id : ℕ) : (c.performRoomStats id).results = c.results :=
  present_keeps Client.results (fun _ _ _ => rfl) _ _ fun _ =>
    setUpLabel_keeps Client.results fun _ _ => rfl

/-- What a step can put on the results screen: the name a snapshot gave the
listener, or what the stats controller holds when the time is up. The stats
controller is in front then, and the results are in front of it afterwards. -/
theorem results_step (env : Env δ) (e : ClientEvent) :
    (c.step env e).client.results = c.results ∨ e = .relaunch ∨
      ∃ vc bet, c.stats = some vc ∧ c.screens.head? = some .stats ∧
        (c.step env e).client.screens.head? = some .results ∧
        ((∃ o db, Delivers env c e o db ∧ o.block = .stats ∧ loserName db o.ref ≠ "" ∧
            (c.step env e).client.results = some ⟨some (loserName db o.ref), bet⟩) ∨
          (e = .updateTimer ∧ vc.timer = .scheduled ∧ vc.timeLeft env.now < 1 ∧
            (c.step env e).client.results = some ⟨vc.loserName, bet⟩)) := by
  by_cases hq : quiet e = true
  · exact .inl (congrArg Face.results (face_step env hq))
  cases e with
  | relaunch => exact .inr (.inl rfl)
  | showSetup =>
    left
    simp only [step, showSetup]
    split
    · exact present_keeps Client.results (fun _ _ _ => rfl) (c := c) none (.setup c.nextSetup)
        fun _ => rfl
    · rfl
  | backTUI => left; simp only [step, backTUI]; split <;> rfl
  | dismiss => left; simp only [step, dismiss]; split <;> rfl
  | appear => exact .inl results_appear
  | ack =>
    left
    simp only [step]
    rcases ack_cases c with ⟨-, hack⟩ | ⟨w, answer, rest, -, -, hack⟩ |
      ⟨w, n, rest, bet, -, -, -, hack⟩
    · rw [hack]
    · rw [hack]; rfl
    · rw [hack]
      exact present_keeps Client.results (fun _ _ _ => rfl) _ _ fun _ => rfl
  | updateTimer =>
    simp only [step, updateTimer]
    cases hs : c.stats with
    | none => exact .inl rfl
    | some vc =>
      simp only
      split
      · rename_i ht
        rcases results_performToResults (c := c) { vc with timer := .invalidated } with
          hr | ⟨hfront, hfront', hr⟩
        · exact .inl hr
        · exact .inr (.inr ⟨vc, _, rfl, hfront, hfront', .inr ⟨trivial, ht.1, ht.2, hr⟩⟩)
      · exact .inl rfl
  | snapshot k i overlaid =>
    simp only [step, snapshot]
    split
    · rename_i o db hk hv
      have hd : Delivers env c (.snapshot k i overlaid) o db := ⟨k, i, overlaid, rfl, hk, hv⟩
      obtain ⟨obs, -, heq⟩ := c.deliver_eq k o db
      rw [heq]
      cases hb : o.block with
      | lobby id =>
        left
        simp only [observeEventBlock]
        split
        · exact results_performRoomStats id
        · rfl
      | stats =>
        simp only [listener]
        cases hs : c.stats with
        | none => exact .inl rfl
        | some vc =>
          simp only
          split
          · rename_i hn
            rcases results_performToResults (c := { c with observers := obs })
              { vc with loserName := some (loserName db o.ref) } with hr | ⟨hfront, hfront', hr⟩
            · exact .inl hr
            · exact .inr (.inr ⟨vc, _, rfl, hfront, hfront', .inl ⟨o, db, hd, hb, hn, hr⟩⟩)
          · exact .inl rfl
      | setUpLabel =>
        left
        simp only [setUpLabelCompletion]
        split <;> rfl
    · exact .inl rfl
  | _ => exact absurd rfl hq

/-! ## Names -/

/-- A name handed to the segue is read off a snapshot just then, or held already. -/
theorem issued_toResults (env : Env δ) {e : ClientEvent} {n : String} {bet : Option ℚ}
    (h : Call.performToResults (some n) bet ∈ c.issued env e) :
    (∃ o db, Delivers env c e o db ∧ o.block = .stats ∧ loserName db o.ref ≠ "" ∧
        loserName db o.ref = n) ∨
      ∃ vc, c.stats = some vc ∧ vc.loserName = some n := by
  cases e with
  | snapshot k i overlaid =>
    simp only [issued] at h
    split at h
    · rename_i o db hk hv
      unfold issuedByDeliver at h
      split at h
      · split at h <;> simp at h
      · rename_i hb
        split at h
        · split at h
          · rename_i hname
            simp only [List.mem_singleton, Call.performToResults.injEq, Option.some.injEq] at h
            exact .inl ⟨o, db, ⟨k, i, overlaid, rfl, hk, hv⟩, hb, hname, h.1.symm⟩
          · simp at h
        · simp at h
      · split at h <;> simp at h
    · simp at h
  | updateTimer =>
    simp only [issued] at h
    split at h
    · rename_i vc hvc
      split at h
      · simp only [List.mem_singleton, Call.performToResults.injEq] at h
        exact .inr ⟨vc, hvc, h.1.symm⟩
      · simp at h
    · simp at h
  | didEnterBackground => simp only [issued] at h; split at h <;> simp at h
  | check k =>
    simp only [issued] at h
    split at h
    · split at h
      · simp at h
      · split at h <;> simp at h
    · simp at h
  | completion k error =>
    simp only [issued] at h
    split at h
    · split at h <;> simp at h
    · simp at h
  | _ => simp [issued] at h

/-- A name that the stats controller holds, has handed to the segue or shows on
the results screen is one that `Q` accepts for the observed room. -/
structure Named (Q : String → String → Prop) (c : Client) : Prop where
  stats : ∀ vc n, c.stats = some vc → vc.loserName = some n →
    ∃ r, vc.observedRID = some r ∧ Q r n
  calls : ∀ n bet, Call.performToResults (some n) bet ∈ c.calls →
    ∃ vc r, c.stats = some vc ∧ vc.observedRID = some r ∧ Q r n
  results : ∀ res n, c.results = some res → res.loserName = some n →
    ∃ vc r, c.stats = some vc ∧ vc.observedRID = some r ∧ Q r n

theorem named_launch (Q : String → String → Prop) : Named Q launch where
  stats _ _ h := by cases h
  calls _ _ h := (List.not_mem_nil h).elim
  results _ _ h := by cases h

/-- A name enters the client from a snapshot of the observed room only. -/
theorem Named.step {Q Q' : String → String → Prop} (hnav : c.Nav) (hatt : c.Attached)
    (h : c.Named Q) (env : Env δ) (e : ClientEvent) (hmono : ∀ r n, Q r n → Q' r n)
    (hview : ∀ vc r o db, Delivers env c e o db → o.block = .stats → c.stats = some vc →
      vc.observedRID = some r → o.ref = roomUsersRef r → loserName db (roomUsersRef r) ≠ "" →
      Q' r (loserName db (roomUsersRef r))) : (c.step env e).client.Named Q' := by
  by_cases hl : e = .relaunch
  · subst hl
    exact named_launch Q'
  -- the two things to use: the observed room stays, and a delivered name is accepted for it
  have hkeep : ∀ n, (∃ vc r, c.stats = some vc ∧ vc.observedRID = some r ∧ Q r n) →
      ∃ vc r, (c.step env e).client.stats = some vc ∧ vc.observedRID = some r ∧ Q' r n := by
    intro n hx
    obtain ⟨vc, r, hs, hr, hq⟩ := hx
    obtain ⟨vc', hs', hr'⟩ := hatt.observed_step hnav env hl hs hr
    exact ⟨vc', r, hs', hr', hmono r n hq⟩
  have hnew : ∀ o db, Delivers env c e o db → o.block = .stats → loserName db o.ref ≠ "" →
      ∃ vc r, (c.step env e).client.stats = some vc ∧ vc.observedRID = some r ∧
        Q' r (loserName db o.ref) := by
    intro o db hd hb hn
    obtain ⟨k, i, overlaid, he, hk, hv⟩ := id hd
    obtain ⟨vc, r, hs, hr, href⟩ := hatt.listener o (List.mem_of_getElem? hk) hb
    obtain ⟨vc', hs', hr'⟩ := hatt.observed_step hnav env hl hs hr
    rw [href] at hn ⊢
    exact ⟨vc', r, hs', hr', hview vc r o db hd hb hs hr href hn⟩
  refine ⟨fun vc' n hs' hn => ?_, fun n bet hm => ?_, fun res n hres hn => ?_⟩
  · have hs := stats_step hnav env e
    rw [hs'] at hs
    generalize hc : c.stats = s at hs
    have hold : ∀ vc, c.stats = some vc → vc.loserName = some n → vc'.observedRID = vc.observedRID →
        ∃ r, vc'.observedRID = some r ∧ Q' r n := by
      intro vc hvc hvn ho
      obtain ⟨r, hr, hq⟩ := h.stats vc n hvc hvn
      exact ⟨r, ho.trans hr, hmono r n hq⟩
    cases hs with
    | same => exact hold _ hc hn rfl
    | loaded => cases hn
    | @observed vc t rest rid he ht ha hrid =>
      obtain ⟨r, hr, -⟩ := h.stats _ n hc hn
      rw [hatt.unobserved (hatt.last_owed ht ha).1 vc hc] at hr
      cases hr
    | @lost vc o db hd hb hname =>
      cases hn
      obtain ⟨vc'', r, hs'', hr, hq⟩ := hnew o db hd hb hname
      rw [hs'] at hs''
      cases hs''
      exact ⟨r, hr, hq⟩
    | labelled => exact hold _ hc hn rfl
    | ticked => exact hold _ hc hn rfl
    | backgrounded => exact hold _ hc hn rfl
    | locked => exact hold _ hc hn rfl
  · rw [calls_step env hl] at hm
    rcases List.mem_append.mp hm with hm | hm
    · exact hkeep n (h.calls n bet hm)
    · rcases issued_toResults env hm with ⟨o, db, hd, hb, hname, rfl⟩ | ⟨vc, hvc, hvn⟩
      · exact hnew o db hd hb hname
      · obtain ⟨r, hr, hq⟩ := h.stats vc n hvc hvn
        exact hkeep n ⟨vc, r, hvc, hr, hq⟩
  · rcases results_step (c := c) env e with hsame | he | ⟨vc, bet, hs, -, -, hcase⟩
    · exact hkeep n (h.results res n (hsame ▸ hres) hn)
    · exact absurd he hl
    · rcases hcase with ⟨o, db, hd, hb, hname, hr⟩ | ⟨-, -, -, hr⟩
      · rw [hr] at hres
        cases hres
        cases hn
        exact hnew o db hd hb hname
      · rw [hr] at hres
        cases hres
        obtain ⟨r, hr', hq⟩ := h.stats vc n hs hn
        exact hkeep n ⟨vc, r, hs, hr', hq⟩

end
end Client

/-! ## Every run -/

section
variable {ι δ : Type*} [DecidableEq ι] [RealtimeDatabase δ]

theorem run_attached (D : Deployment ι) (evs : List (Event ι)) (x : ι) :
    ((D.run evs : System ι δ).clients x).Nav ∧ ((D.run evs : System ι δ).clients x).Attached := by
  have h := client_invariant (δ := δ) D
    (P := fun c => (c.Nav ∧ c.Writes Client.Sent) ∧ c.Attached)
    ⟨⟨Client.nav_launch, fun _ h => (List.not_mem_nil h).elim,
      fun _ h => (List.not_mem_nil h).elim⟩, Client.attached_launch⟩
    (fun _ env e h => ⟨⟨h.1.1.step h.1.2 env e,
      h.1.2.step env e fun _ hw => Client.sent_of_emits hw⟩, h.2.step h.1.1 env e⟩) evs x
  exact ⟨h.1.1, h.2⟩

/-- What every snapshot that names a loser to a listener of the run supports, and
later steps keep, every name in a client has. -/
theorem run_named (D : Deployment ι) {Q : List (Event ι) → ι → String → String → Prop}
    {evs : List (Event ι)}
    (hmono : ∀ pre e x r n, pre ++ [e] <+: evs → Q pre x r n → Q (pre ++ [e]) x r n)
    (hview : ∀ pre e x vc r o db, pre ++ [.client x e] <+: evs →
      Client.Delivers ((D.run pre : System ι δ).env D x) ((D.run pre : System ι δ).clients x) e o
        db → o.block = .stats → ((D.run pre : System ι δ).clients x).stats = some vc →
      vc.observedRID = some r → loserName db (roomUsersRef r) ≠ "" →
      Q pre x r (loserName db (roomUsersRef r))) (x : ι) :
    ((D.run evs : System ι δ).clients x).Named (Q evs x) := by
  induction evs using List.reverseRecOn generalizing x with
  | nil => exact Client.named_launch _
  | append_singleton evs e ih =>
    have hpre : ∀ {l}, l <+: evs → l <+: evs ++ [e] := fun h => h.trans (List.prefix_append _ _)
    have hevs := ih (fun pre e' y r n hp => hmono pre e' y r n (hpre hp))
      (fun pre e' y vc r o db hp => hview pre e' y vc r o db (hpre hp))
    have hstep := fun y r n => hmono evs e y r n List.prefix_rfl
    have hkeep : ∀ {c : Client}, c.Named (Q evs x) → c.Named (Q (evs ++ [e]) x) := by
      intro c h
      refine ⟨fun vc n hs hn => ?_, fun n bet hm => ?_, fun res n hr hn => ?_⟩
      · obtain ⟨r, hr, hq⟩ := h.stats vc n hs hn
        exact ⟨r, hr, hstep x r n hq⟩
      · obtain ⟨vc, r, hs, hr, hq⟩ := h.calls n bet hm
        exact ⟨vc, r, hs, hr, hstep x r n hq⟩
      · obtain ⟨vc, r, hs, hr, hq⟩ := h.results res n hr hn
        exact ⟨vc, r, hs, hr, hstep x r n hq⟩
    rw [run_concat]
    rcases clients_step D (D.run evs : System ι δ) e x with ⟨-, hsame⟩ | ⟨e', he, hown⟩
    · rw [hsame]
      exact hkeep (hevs x)
    · subst he
      rw [hown]
      obtain ⟨hnav, hatt⟩ := run_attached (δ := δ) D evs x
      exact (hevs x).step hnav hatt _ e' (hstep x) fun vc r o db hd hb hs hr _ hn =>
        hstep x r _ (hview evs e' x vc r o db List.prefix_rfl hd hb hs hr hn)

end

end Unplug.App
