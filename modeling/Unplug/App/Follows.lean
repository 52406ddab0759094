import Unplug.App.Navigation

/-! # What a step adds to a client

Everything new in a client goes by the global rid as it stands: the observers
it attaches, the checks it schedules, and through the checks the transactions.
Only answers change the rid, and only a relaunch drops it. -/
namespace Unplug.App
open Unplug.Store Unplug.Firebase Unplug.Machine RealtimeDatabase

/-- The observer is at the place its block reads in the room `rid`. -/
def Observer.At (rid : String) (o : Observer) : Prop :=
  o.ref = match o.block with
    | .lobby _ => roomRef rid
    | .setUpLabel => roomRef rid
    | .stats => roomUsersRef rid

namespace Client

/-- `c'` follows `c`: no other lobby and no other rid, and all that is new goes by the rid. -/
structure Follows (c c' : Client) : Prop where
  rid : c'.currentRID = c.currentRID
  screens : ∀ id, Screen.lobby id ∈ c'.screens → Screen.lobby id ∈ c.screens
  lobbies : ∀ (id : ℕ) vc, c.lobbies[id]? = some vc → ∃ vc', c'.lobbies[id]? = some vc' ∧
    vc'.qrCode = vc.qrCode ∧
    ∀ r, vc'.observedRID = some r → vc.observedRID = some r ∨ c.currentRID = some r
  observers : ∀ o ∈ c'.observers, o ∈ c.observers ∨ ∃ r, c.currentRID = some r ∧ o.At r
  observed : ∀ vc' r, c'.stats = some vc' → vc'.observedRID = some r →
    (∃ vc, c.stats = some vc ∧ vc.observedRID = some r) ∨ c.currentRID = some r
  checks : ∀ ch ∈ c'.checks, ch ∈ c.checks ∨ c.currentRID = some ch.rid
  transactions : ∀ t ∈ c'.transactions,
    (∃ t₀ ∈ c.transactions, t₀.rid = t.rid) ∨ ∃ ch ∈ c.checks, ch.rid = t.rid

variable {c c' c'' : Client}

theorem Follows.refl (c : Client) : Follows c c where
  rid := rfl
  screens _ h := h
  lobbies _ vc h := ⟨vc, h, rfl, fun _ hr => .inl hr⟩
  observers _ h := .inl h
  observed vc _ hs hr := .inl ⟨vc, hs, hr⟩
  checks _ h := .inl h
  transactions t h := .inl ⟨t, h, rfl⟩

/-- One follows the other when nothing that a room is read from differs, and
there are no new lobbies, observers, checks and transactions. -/
theorem Follows.of_eq (hrid : c'.currentRID = c.currentRID)
    (hscreens : ∀ id, Screen.lobby id ∈ c'.screens → Screen.lobby id ∈ c.screens)
    (hlobbies : c'.lobbies = c.lobbies) (hobs : ∀ o ∈ c'.observers, o ∈ c.observers)
    (hstats : ∀ vc', c'.stats = some vc' →
      vc'.observedRID = none ∨ ∃ vc, c.stats = some vc ∧ vc.observedRID = vc'.observedRID)
    (hchecks : ∀ ch ∈ c'.checks, ch ∈ c.checks)
    (htrans : ∀ t ∈ c'.transactions, ∃ t₀ ∈ c.transactions, t₀.rid = t.rid) : Follows c c' where
  rid := hrid
  screens := hscreens
  lobbies _ vc h := ⟨vc, hlobbies ▸ h, rfl, fun _ hr => .inl hr⟩
  observers o ho := .inl (hobs o ho)
  observed vc' r hs hr := by
    rcases hstats vc' hs with hn | ⟨vc, hvc, ho⟩
    · rw [hn] at hr; cases hr
    · exact .inl ⟨vc, hvc, ho.trans hr⟩
  checks ch h := .inl (hchecks ch h)
  transactions t h := .inl (htrans t h)

theorem Follows.of_same (hrid : c'.currentRID = c.currentRID) (hscreens : c'.screens = c.screens)
    (hlobbies : c'.lobbies = c.lobbies) (hobs : c'.observers = c.observers)
    (hstats : c'.stats = c.stats) (hchecks : c'.checks = c.checks)
    (htrans : c'.transactions = c.transactions) : Follows c c' :=
  .of_eq hrid (fun _ h => hscreens ▸ h) hlobbies (fun _ h => hobs ▸ h)
    (fun vc h => .inr ⟨vc, hstats ▸ h, rfl⟩) (fun _ h => hchecks ▸ h)
    fun t h => ⟨t, htrans ▸ h, rfl⟩

theorem Follows.trans (h : Follows c c') (h' : Follows c' c'')
    (hch : ∀ ch ∈ c'.checks, ch ∈ c.checks) : Follows c c'' where
  rid := h'.rid.trans h.rid
  screens id hs := h.screens id (h'.screens id hs)
  lobbies id vc hvc := by
    obtain ⟨vc', hvc', hq, ho⟩ := h.lobbies id vc hvc
    obtain ⟨vc'', hvc'', hq', ho'⟩ := h'.lobbies id vc' hvc'
    refine ⟨vc'', hvc'', hq'.trans hq, fun r hr => ?_⟩
    rcases ho' r hr with hr | hr
    · exact ho r hr
    · exact .inr (h.rid ▸ hr)
  observers o ho := by
    rcases h'.observers o ho with ho | ⟨r, hr, ha⟩
    · exact h.observers o ho
    · exact .inr ⟨r, h.rid ▸ hr, ha⟩
  observed vc r hs hr := by
    rcases h'.observed vc r hs hr with ⟨vc', hs', hr'⟩ | hr
    · exact h.observed vc' r hs' hr'
    · exact .inr (h.rid ▸ hr)
  checks ch hm := by
    rcases h'.checks ch hm with hm | hr
    · exact h.checks ch hm
    · exact .inr (h.rid ▸ hr)
  transactions t ht := by
    rcases h'.transactions t ht with ⟨t', ht', he⟩ | ⟨ch, hm, he⟩
    · rcases h.transactions t' ht' with ⟨t₀, ht₀, he₀⟩ | ⟨ch, hm, he₀⟩
      · exact .inl ⟨t₀, ht₀, he₀.trans he⟩
      · exact .inr ⟨ch, hm, he₀.trans he⟩
    · exact .inr ⟨ch, hch ch hm, he⟩

theorem follows_showSetup : Follows c c.showSetup := by
  unfold showSetup present
  split
  · rename_i hs
    rw [if_pos (by rw [hs]; rfl)]
    exact .of_eq rfl (fun id h => by simpa using h) rfl (fun _ h => h)
      (fun vc h => .inr ⟨vc, h, rfl⟩) (fun _ h => h) fun t h => ⟨t, h, rfl⟩
  · exact .refl c

theorem follows_backTUI : Follows c c.backTUI := by
  unfold backTUI
  split
  · rename_i hs
    exact .of_eq rfl (fun id h => by rw [hs]; exact List.mem_cons_of_mem _ h) rfl (fun _ h => h)
      (fun vc h => .inr ⟨vc, h, rfl⟩) (fun _ h => h) fun t h => ⟨t, h, rfl⟩
  · exact .refl c

theorem follows_dismiss : Follows c c.dismiss := by
  unfold dismiss
  split
  · rename_i hs
    exact .of_eq rfl (fun id h => by rw [hs]; exact List.mem_cons_of_mem _ h) rfl (fun _ h => h)
      (fun vc h => .inr ⟨vc, h, rfl⟩) (fun _ h => h) fun t h => ⟨t, h, rfl⟩
  · exact .refl c

theorem follows_setUpLabel : Follows c c.setUpLabel := by
  unfold setUpLabel
  split
  · rename_i rid hrid
    refine ⟨rfl, fun _ h => h, fun _ vc h => ⟨vc, h, rfl, fun _ hr => .inl hr⟩, fun o ho => ?_,
      fun vc _ hs hr => .inl ⟨vc, hs, hr⟩, fun _ h => .inl h, fun t h => .inl ⟨t, h, rfl⟩⟩
    rcases List.mem_append.mp ho with ho | ho
    · exact .inl ho
    · exact .inr ⟨rid, hrid, List.mem_singleton.mp ho ▸ rfl⟩
  · exact .refl c

theorem follows_performRoomStats (id : ℕ) : Follows c (c.performRoomStats id) := by
  unfold performRoomStats present
  simp only
  split
  · refine Follows.trans ?_ follows_setUpLabel fun _ h => h
    refine .of_eq rfl (fun id h => by simpa using h) rfl (fun _ h => h) (fun vc h => ?_)
      (fun _ h => h) fun t h => ⟨t, h, rfl⟩
    cases h
    exact .inl rfl
  · exact .of_eq rfl (fun _ h => h) rfl (fun _ h => h) (fun vc h => .inr ⟨vc, h, rfl⟩)
      (fun _ h => h) fun t h => ⟨t, h, rfl⟩

theorem follows_performToResults {vc vc' : RoomStatsViewController} (hs : c.stats = some vc)
    (ho : vc'.observedRID = vc.observedRID) : Follows c (c.performToResults vc') := by
  have hstats : ∀ v, (some vc' : Option RoomStatsViewController) = some v →
      v.observedRID = none ∨ ∃ w, c.stats = some w ∧ w.observedRID = v.observedRID := by
    intro v hv
    cases hv
    exact .inr ⟨vc, hs, ho.symm⟩
  unfold performToResults present
  split
  · exact .of_eq rfl (fun id h => by simpa using h) rfl (fun _ h => h) hstats (fun _ h => h)
      fun t h => ⟨t, h, rfl⟩
  · exact .of_eq rfl (fun _ h => h) rfl (fun _ h => h) hstats (fun _ h => h)
      fun t h => ⟨t, h, rfl⟩

/-- Dropping observers follows, whatever becomes of the transitions. -/
theorem follows_observers {obs : List Observer} (h : ∀ o ∈ obs, o ∈ c.observers)
    (transitions : List Transition) :
    Follows c { c with observers := obs, transitions := transitions } :=
  .of_eq rfl (fun _ h => h) rfl h (fun vc h => .inr ⟨vc, h, rfl⟩) (fun _ h => h)
    fun t h => ⟨t, h, rfl⟩

theorem follows_lobbySetUpListener (id : ℕ) : Follows c (c.lobbySetUpListener id) := by
  unfold lobbySetUpListener
  split
  · rename_i rid hrid
    refine ⟨rfl, fun _ h => h, fun id' vc h => ?_, fun o ho => ?_,
      fun vc _ hs hr => .inl ⟨vc, hs, hr⟩, fun _ h => .inl h, fun t h => .inl ⟨t, h, rfl⟩⟩
    · rw [List.getElem?_modify, h]
      refine ⟨_, rfl, ?_, fun r hr => ?_⟩
      · split <;> rfl
      · split at hr
        · exact .inr (hrid.trans hr)
        · exact .inl hr
    · rcases List.mem_append.mp ho with ho | ho
      · exact .inl ho
      · refine .inr ⟨rid, hrid, ?_⟩
        rcases List.mem_cons.mp ho with rfl | ho
        · rfl
        · exact List.mem_singleton.mp ho ▸ rfl
  · exact .refl c

theorem follows_statsSetUpListener : Follows c c.statsSetUpListener := by
  unfold statsSetUpListener
  split
  · rename_i rid hrid
    refine ⟨rfl, fun _ h => h, fun _ vc h => ⟨vc, h, rfl, fun _ hr => .inl hr⟩, fun o ho => ?_,
      fun vc r hs hr => ?_, fun _ h => .inl h, fun t h => .inl ⟨t, h, rfl⟩⟩
    · rcases List.mem_append.mp ho with ho | ho
      · exact .inl ho
      · exact .inr ⟨rid, hrid, List.mem_singleton.mp ho ▸ rfl⟩
    · obtain ⟨vc₀, -, rfl⟩ := Option.map_eq_some_iff.mp hs
      exact .inr (hrid.trans hr)
  · exact .refl c

theorem follows_viewWillAppear (s : Option Screen) : Follows c (c.viewWillAppear s) := by
  unfold viewWillAppear
  split
  · exact follows_lobbySetUpListener _
  · exact follows_statsSetUpListener
  · exact .refl c

theorem follows_appear : Follows c c.appear := by
  rcases c.appear_cases with ⟨-, ha⟩ | ⟨t, rest, obs, -, hobs, ha⟩
  · rw [ha]
    exact .refl c
  · rw [ha]
    exact (follows_observers hobs rest).trans (follows_viewWillAppear t.appears) fun _ h => h

section
variable {δ : Type*} [RealtimeDatabase δ]

theorem follows_deliver (k : ℕ) (o : Observer) (db : δ) : Follows c (c.deliver k o db) := by
  obtain ⟨obs, hobs, heq⟩ := c.deliver_eq k o db
  rw [heq]
  refine (follows_observers hobs c.transitions).trans ?_ fun _ h => h
  split
  · rename_i id _
    have hd : Follows { c with observers := obs } { c with
        observers := obs
        lobbies := c.lobbies.modify id fun vc =>
          { vc with uidAndNameDict := collectNames db o.ref vc.uidAndNameDict } } := by
      refine ⟨rfl, fun _ h => h, fun id' vc h => ?_, fun _ h => .inl h,
        fun vc _ hs hr => .inl ⟨vc, hs, hr⟩, fun _ h => .inl h, fun t h => .inl ⟨t, h, rfl⟩⟩
      rw [List.getElem?_modify, h]
      refine ⟨_, rfl, ?_, fun r hr => .inl ?_⟩
      · split <;> rfl
      · split at hr <;> exact hr
    unfold observeEventBlock
    simp only
    split
    · exact hd.trans (follows_performRoomStats id) fun _ h => h
    · exact hd
  · unfold listener
    split
    · rename_i vc hvc
      split
      · exact follows_performToResults hvc rfl
      · exact .refl _
    · exact .refl _
  · unfold setUpLabelCompletion
    split
    · rename_i vc _ _ _ hvc _
      refine .of_eq rfl (fun _ h => h) rfl (fun _ h => h) (fun v hv => ?_) (fun _ h => h)
        fun t h => ⟨t, h, rfl⟩
      cases hv
      exact .inr ⟨vc, hvc, rfl⟩
    · exact .refl _

/-- Apart from answers and a relaunch, what a step adds goes by the rid. -/
theorem follows_step (env : Env δ) {e : ClientEvent} (hack : e ≠ .ack) (hlaunch : e ≠ .relaunch) :
    Follows c (c.step env e).client := by
  cases e with
  | ack => exact absurd rfl hack
  | relaunch => exact absurd rfl hlaunch
  | showSetup => exact follows_showSetup
  | backTUI => exact follows_backTUI
  | dismiss => exact follows_dismiss
  | appear => exact follows_appear
  | editBetAmount value =>
    simp only [step, editBetAmount]
    split
    · exact .of_same rfl rfl rfl rfl rfl rfl rfl
    · exact .refl c
  | createTUI timeLimit =>
    simp only [step, createTUI]
    split
    · rename_i c' hc'
      split at hc'
      · cases hc'; exact .of_same rfl rfl rfl rfl rfl rfl rfl
      · cases hc'
    · exact .refl c
  | scanQRCode text =>
    simp only [step, scanQRCode]
    split
    · exact .of_same rfl rfl rfl rfl rfl rfl rfl
    · exact .refl c
  | startRoomTUI =>
    simp only [step, startRoomTUI]
    split
    · exact .of_same rfl rfl rfl rfl rfl rfl rfl
    · exact .refl c
  | deliverWrite accepted =>
    simp only [step, deliverWrite]
    split
    · split
      · exact .of_same rfl rfl rfl rfl rfl rfl rfl
      · exact .of_same rfl rfl rfl rfl rfl rfl rfl
    · exact .refl c
  | snapshot k i overlaid =>
    simp only [step, snapshot]
    split
    · rename_i o db _ _
      have hch : (c.deliver k o db).checks = c.checks := congrArg Link.checks (link_deliver k o db)
      exact (follows_deliver k o db).trans (.of_same rfl rfl rfl rfl rfl rfl rfl) fun _ h => hch ▸ h
    · exact .refl c
  | updateTimer =>
    simp only [step, updateTimer]
    split
    · rename_i vc hvc
      split
      · exact follows_performToResults hvc rfl
      · exact .refl c
    · exact .refl c
  | didEnterBackground =>
    simp only [step, didEnterBackground, appBackgrounded]
    split
    · split
      · rename_i rid hrid
        refine ⟨rfl, fun _ h => h, fun _ vc h => ⟨vc, h, rfl, fun _ hr => .inl hr⟩,
          fun _ h => .inl h, fun vc r hs hr => ?_, fun ch h => ?_, fun t h => .inl ⟨t, h, rfl⟩⟩
        · obtain ⟨vc₀, hvc₀, rfl⟩ := Option.map_eq_some_iff.mp hs
          exact .inl ⟨vc₀, hvc₀, hr⟩
        · rcases List.mem_append.mp h with h | h
          · exact .inl h
          · exact .inr (List.mem_singleton.mp h ▸ hrid)
      · exact .refl c
    · exact .refl c
  | willEnterForeground => exact .refl c
  | lockcomplete =>
    simp only [step, lockcomplete, deviceLocked]
    split
    · refine .of_eq rfl (fun _ h => h) rfl (fun _ h => h) (fun v hv => ?_) (fun _ h => h)
        fun t h => ⟨t, h, rfl⟩
      obtain ⟨vc, hvc, rfl⟩ := Option.map_eq_some_iff.mp hv
      exact .inr ⟨vc, hvc, rfl⟩
    · exact .refl c
  | check k =>
    simp only [step, check]
    split
    · rename_i ch hch
      split
      · exact .refl c
      · split
        · refine ⟨rfl, fun _ h => h, fun _ vc h => ⟨vc, h, rfl, fun _ hr => .inl hr⟩,
            fun _ h => .inl h, fun vc r hs hr => .inl ⟨vc, hs, hr⟩,
            fun ch h => .inl (List.mem_of_mem_eraseIdx h), fun t h => ?_⟩
          rcases List.mem_append.mp h with h | h
          · exact .inl ⟨t, h, rfl⟩
          · exact .inr ⟨ch, List.mem_of_getElem? hch, List.mem_singleton.mp h ▸ rfl⟩
        · exact .of_eq rfl (fun _ h => h) rfl (fun _ h => h) (fun vc h => .inr ⟨vc, h, rfl⟩)
            (fun _ h => List.mem_of_mem_eraseIdx h) fun t h => ⟨t, h, rfl⟩
    · exact .refl c
  | runBlock k currentData =>
    refine .of_eq rfl (fun _ h => h) rfl (fun _ h => h) (fun vc h => .inr ⟨vc, h, rfl⟩)
      (fun _ h => h) fun t h => ?_
    obtain ⟨j, hj⟩ := List.mem_iff_getElem?.mp h
    rw [show (c.step env (.runBlock k currentData)).client.transactions =
      c.transactions.modify k _ from rfl, List.getElem?_modify] at hj
    obtain ⟨t₀, ht₀, rfl⟩ := Option.map_eq_some_iff.mp hj
    refine ⟨t₀, List.mem_of_getElem? ht₀, ?_⟩
    split
    · split <;> rfl
    · rfl
  | compare k =>
    simp only [step, compare]
    split
    · rename_i rid task value now ht
      have hset : ∀ t', t'.rid = rid → ∀ t ∈ c.transactions.set k t',
          ∃ t₀ ∈ c.transactions, t₀.rid = t.rid := by
        intro t' hr t hm
        rcases List.mem_or_eq_of_mem_set hm with hm | rfl
        · exact ⟨t, hm, rfl⟩
        · exact ⟨_, List.mem_of_getElem? ht, hr.symm⟩
      split
      · exact .of_eq rfl (fun _ h => h) rfl (fun _ h => h) (fun vc h => .inr ⟨vc, h, rfl⟩)
          (fun _ h => h) (hset _ rfl)
      · exact .of_eq rfl (fun _ h => h) rfl (fun _ h => h) (fun vc h => .inr ⟨vc, h, rfl⟩)
          (fun _ h => h) (hset _ rfl)
    · exact .refl c
  | completion k error =>
    simp only [step, transactionCompletion]
    split
    · split
      · exact .of_eq rfl (fun _ h => h) rfl (fun _ h => h) (fun vc h => .inr ⟨vc, h, rfl⟩)
          (fun _ h => h) fun t h => ⟨t, List.mem_of_mem_eraseIdx h, rfl⟩
      · exact .refl c
    · exact .refl c

end

end Client

end Unplug.App
