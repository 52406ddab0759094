import Unplug.App.YouLost

/-! # Observers that wait to be shown a state

A registered observer stays until it is shown a state, if it takes one only, or until a
controller tears down what is at its place. The label waits this way: from the loading of
the stats controller until the timer runs, exactly one observer owes the room's info. -/
namespace Unplug.App
open Unplug.Store Unplug.Firebase Unplug.Machine RealtimeDatabase

namespace Client
section
variable {δ : Type*} [RealtimeDatabase δ] {c : Client}

/-! ## Appearance callbacks -/

/-- The observer is at no place that `tearDownListener` would clear. -/
def Sheltered (c : Client) (o : Observer) : Prop :=
  ∀ rid, c.currentRID = some rid → o.ref ≠ roomUsersRef rid

theorem mem_viewWillDisappear {o : Observer} (ho : o ∈ c.observers) (hs : c.Sheltered o)
    (s : Option Screen) : o ∈ (c.viewWillDisappear s).observers := by
  have htear : o ∈ c.tearDownListener.observers := by
    unfold tearDownListener
    split
    · rename_i rid hrid
      exact List.mem_filter.mpr ⟨ho, by simpa using hs rid hrid⟩
    · exact ho
  unfold viewWillDisappear
  split
  · exact htear
  · exact htear
  · exact ho

/-- What appears only adds observers, and none that reads the label. -/
theorem observers_viewWillAppear (s : Option Screen) :
    ∃ new, (c.viewWillAppear s).observers = c.observers ++ new ∧
      ∀ o ∈ new, o.block ≠ .setUpLabel := by
  unfold viewWillAppear lobbySetUpListener statsSetUpListener
  split
  · split
    · refine ⟨_, rfl, ?_⟩
      intro o ho
      rcases List.mem_cons.mp ho with rfl | ho
      · simp
      · rw [List.mem_singleton.mp ho]
        simp
    · exact ⟨[], by simp, by simp⟩
  · split
    · refine ⟨_, rfl, ?_⟩
      intro o ho
      rw [List.mem_singleton.mp ho]
      simp
    · exact ⟨[], by simp, by simp⟩
  · exact ⟨[], by simp, by simp⟩

theorem mem_appear {o : Observer} (ho : o ∈ c.observers) (hs : c.Sheltered o) :
    o ∈ c.appear.observers := by
  unfold appear
  split
  · rename_i t rest _
    obtain ⟨new, hnew, -⟩ := observers_viewWillAppear
      (c := viewWillDisappear { c with transitions := rest } t.disappears) t.appears
    rw [hnew]
    exact List.mem_append_left _
      (mem_viewWillDisappear (c := { c with transitions := rest }) ho hs t.disappears)
  · exact ho

/-! ## A snapshot -/

theorem observers_performRoomStats (id : ℕ) :
    (c.performRoomStats id).observers = c.observers ++
      if c.screens.head? = some (.lobby id) then
        (c.currentRID.map fun rid => (⟨roomRef rid, .setUpLabel, true⟩ : Observer)).toList
      else [] := by
  unfold performRoomStats present setUpLabel
  simp only
  split
  · cases c.currentRID with
    | none => simp
    | some rid => rfl
  · simp

/-- The observers that a delivery leaves: one that takes a single event is gone. -/
theorem observers_deliver (k : ℕ) {o : Observer} (db : δ) :
    ∃ new, (c.deliver k o db).observers =
        (if o.single then c.observers.eraseIdx k else c.observers) ++ new ∧
      (∀ id, o.block = .lobby id → started db o.ref = true →
        c.screens.head? = some (.lobby id) → new =
          (c.currentRID.map fun rid => (⟨roomRef rid, .setUpLabel, true⟩ : Observer)).toList) ∧
      ((∀ id, o.block = .lobby id → started db o.ref = true →
        c.screens.head? ≠ some (.lobby id)) → new = []) := by
  unfold deliver
  have hfst : ∀ (b : Bool), (if b then { c with observers := c.observers.eraseIdx k } else c) =
      { c with observers := if b then c.observers.eraseIdx k else c.observers } := by
    intro b
    cases b <;> rfl
  rw [hfst]
  generalize (if o.single then c.observers.eraseIdx k else c.observers) = obs
  cases hb : o.block with
  | lobby id =>
    simp only [observeEventBlock]
    by_cases hst : started db o.ref = true
    · rw [if_pos hst]
      refine ⟨_, observers_performRoomStats id, ?_, ?_⟩
      · intro id' hid _ hfront
        cases hid
        exact if_pos hfront
      · intro hno
        exact if_neg (hno id rfl hst)
    · rw [if_neg hst]
      exact ⟨[], by simp, fun _ _ h => absurd h hst, fun _ => rfl⟩
  | stats =>
    refine ⟨[], ?_, fun _ h => (by cases h), fun _ => rfl⟩
    simp only [listener, List.append_nil]
    split
    · split
      · exact observers_performToResults _
      · rfl
    · rfl
  | setUpLabel =>
    refine ⟨[], ?_, fun _ h => (by cases h), fun _ => rfl⟩
    simp only [setUpLabelCompletion, List.append_nil]
    split <;> rfl

theorem mem_eraseIdx_of_ne {α : Type*} {l : List α} {k : ℕ} {a b : α} (hk : l[k]? = some b)
    (ha : a ∈ l) (hne : a ≠ b) : a ∈ l.eraseIdx k := by
  obtain ⟨i, hi⟩ := List.mem_iff_getElem?.mp ha
  refine List.mem_eraseIdx_iff_getElem?.mpr ⟨i, ?_, hi⟩
  intro heq
  subst heq
  exact hne (Option.some.inj (hi.symm.trans hk))

/-- **An observer stays.** Only a state shown to it, or to another like it, takes it away,
if it takes one event and shelters from the teardown of an appearance. -/
theorem observer_step (env : Env δ) {e : ClientEvent} (hl : e ≠ .relaunch) {o : Observer}
    (ho : o ∈ c.observers) (hs : e = .appear → c.Sheltered o) :
    o ∈ (c.step env e).client.observers ∨ ∃ db, Delivers env c e o db ∧ o.single = true := by
  by_cases hq : quiet e = true
  · left
    rw [show (c.step env e).client.observers = c.observers from
      congrArg Face.observers (face_step env hq)]
    exact ho
  cases e with
  | relaunch => exact absurd rfl hl
  | showSetup =>
    left
    simp only [step, showSetup]
    split
    · rw [show (c.present none (.setup c.nextSetup) id).observers = c.observers from
        present_keeps Client.observers (fun _ _ _ => rfl) none _ fun _ => rfl]
      exact ho
    · exact ho
  | backTUI => left; simp only [step, backTUI]; split <;> exact ho
  | dismiss => left; simp only [step, dismiss]; split <;> exact ho
  | ack =>
    left
    simp only [step]
    rcases ack_cases c with ⟨-, hack⟩ | ⟨w, answer, rest, -, -, hack⟩ |
      ⟨w, n, rest, bet, -, -, -, hack⟩
    · rw [hack]; exact ho
    · rw [hack]; exact ho
    · rw [hack, observers_presentLobby]; exact ho
  | appear => exact .inl (mem_appear ho (hs rfl))
  | updateTimer =>
    left
    simp only [step, updateTimer]
    split
    · split
      · rw [observers_performToResults]; exact ho
      · exact ho
    · exact ho
  | snapshot k i overlaid =>
    simp only [step, snapshot]
    split
    · rename_i o' db hk hv
      obtain ⟨new, hnew, -⟩ := observers_deliver (c := c) k (o := o') db
      simp only [hnew]
      cases hsingle : o'.single with
      | false => exact .inl (List.mem_append_left _ ho)
      | true =>
        by_cases he : o = o'
        · subst he
          exact .inr ⟨db, ⟨k, i, overlaid, rfl, hk, hv⟩, hsingle⟩
        · exact .inl (List.mem_append_left _ (mem_eraseIdx_of_ne hk ho he))
    · exact .inl ho
  | _ => exact absurd rfl hq

/-! ## The label's observer -/

/-- How many observers are to bring the room's info for the label. -/
def labels (c : Client) : ℕ := c.observers.countP fun o => decide (o.block = .setUpLabel)

/-- How many labels the stats controller waits for: one until its timer is scheduled. -/
def unlabelled (c : Client) : ℕ :=
  match c.stats with
  | some vc => if vc.timer = .unscheduled then 1 else 0
  | none => 0

/-- The stats controller waits for as many labels as there are observers to bring one. -/
structure Labelling (c : Client) : Prop where
  count : c.labels = c.unlabelled
  single : ∀ o ∈ c.observers, o.block = .setUpLabel → o.single = true

theorem labelling_launch : Labelling launch where
  count := rfl
  single _ h := (List.not_mem_nil h).elim

/-- The observer of a label that is waited for. -/
theorem Labelling.exists_observer (h : c.Labelling) {vc : RoomStatsViewController}
    (hvc : c.stats = some vc) (ht : vc.timer = .unscheduled) :
    ∃ o ∈ c.observers, o.block = .setUpLabel ∧ o.single = true := by
  have hpos : 0 < c.labels := by
    rw [h.count, unlabelled, hvc]
    simp [ht]
  obtain ⟨o, ho, hb⟩ := List.countP_pos_iff.mp hpos
  exact ⟨o, ho, of_decide_eq_true hb, h.single o ho (of_decide_eq_true hb)⟩

/-- Once the timer is scheduled nothing brings another label. -/
theorem Labelling.no_observer (h : c.Labelling) {vc : RoomStatsViewController}
    (hvc : c.stats = some vc) (ht : vc.timer ≠ .unscheduled) :
    ∀ o ∈ c.observers, o.block ≠ .setUpLabel := by
  have hzero : c.labels = 0 := by
    rw [h.count, unlabelled, hvc]
    simp [ht]
  intro o ho hb
  exact List.countP_eq_zero.mp hzero o ho (decide_eq_true hb)

theorem labels_append {obs new : List Observer} (hnew : ∀ o ∈ new, o.block ≠ .setUpLabel) :
    (obs ++ new).countP (fun o => decide (o.block = .setUpLabel)) =
      obs.countP fun o => decide (o.block = .setUpLabel) := by
  rw [List.countP_append, Nat.add_eq_left, List.countP_eq_zero]
  intro o ho
  simpa using hnew o ho

/-- A teardown leaves sheltered labels. -/
theorem labels_viewWillDisappear
    (hs : ∀ o ∈ c.observers, o.block = .setUpLabel → c.Sheltered o) (s : Option Screen) :
    (c.viewWillDisappear s).labels = c.labels := by
  have htear : c.tearDownListener.labels = c.labels := by
    unfold tearDownListener
    split
    · rename_i rid hrid
      unfold labels
      rw [List.countP_filter]
      refine List.countP_congr fun o ho => ?_
      simp only [Bool.and_eq_true, decide_eq_true_eq, and_iff_left_iff_imp]
      exact fun hb => hs o ho hb rid hrid
    · rfl
  unfold viewWillDisappear
  split
  · exact htear
  · exact htear
  · rfl

theorem labels_appear (hs : ∀ o ∈ c.observers, o.block = .setUpLabel → c.Sheltered o) :
    c.appear.labels = c.labels := by
  unfold appear
  split
  · rename_i t rest _
    obtain ⟨new, hnew, hno⟩ := observers_viewWillAppear
      (c := viewWillDisappear { c with transitions := rest } t.disappears) t.appears
    have hgone := labels_viewWillDisappear (c := { c with transitions := rest }) hs t.disappears
    unfold labels at hgone ⊢
    rw [hnew, labels_append hno, hgone]
  · rfl

/-- Whatever is no snapshot brings no label and adds no observer to bring one. -/
theorem labels_step (env : Env δ) {e : ClientEvent} (hl : e ≠ .relaunch)
    (hk : ∀ k i overlaid, e ≠ .snapshot k i overlaid)
    (hs : ∀ o ∈ c.observers, o.block = .setUpLabel → c.Sheltered o) :
    (c.step env e).client.labels = c.labels := by
  have hsame : ∀ {c' : Client}, c'.observers = c.observers → c'.labels = c.labels := by
    intro c' h
    unfold labels
    rw [h]
  by_cases hq : quiet e = true
  · exact hsame (congrArg Face.observers (face_step env hq))
  cases e with
  | relaunch => exact absurd rfl hl
  | snapshot k i overlaid => exact absurd rfl (hk k i overlaid)
  | appear => exact labels_appear hs
  | showSetup =>
    refine hsame ?_
    simp only [step, showSetup]
    split
    · exact present_keeps Client.observers (fun _ _ _ => rfl) none _ fun _ => rfl
    · rfl
  | backTUI => refine hsame ?_; simp only [step, backTUI]; split <;> rfl
  | dismiss => refine hsame ?_; simp only [step, dismiss]; split <;> rfl
  | ack =>
    refine hsame ?_
    simp only [step]
    rcases ack_cases c with ⟨-, hack⟩ | ⟨w, answer, rest, -, -, hack⟩ |
      ⟨w, n, rest, bet, -, -, -, hack⟩
    · rw [hack]
    · rw [hack]; rfl
    · rw [hack, observers_presentLobby]; rfl
  | updateTimer =>
    refine hsame ?_
    simp only [step, updateTimer]
    split
    · split
      · exact observers_performToResults _
      · rfl
    · rfl
  | _ => exact absurd rfl hq

/-- Without a snapshot a controller neither starts to wait for a label nor stops. -/
theorem unlabelled_step (h : c.Nav) (env : Env δ) {e : ClientEvent} (hl : e ≠ .relaunch)
    (hk : ∀ k i overlaid, e ≠ .snapshot k i overlaid) :
    (c.step env e).client.unlabelled = c.unlabelled := by
  have hno : ∀ o db, ¬ Delivers env c e o db := by
    intro o db hd
    obtain ⟨k, i, overlaid, he, -⟩ := hd
    exact hk k i overlaid he
  have hs := stats_step h env e
  unfold unlabelled
  generalize (c.step env e).client.stats = stats' at hs
  generalize c.stats = stats at hs
  cases hs with
  | same => rfl
  | relaunched he => exact absurd he hl
  | loaded _ hd => exact absurd hd (hno _ _)
  | observed => rfl
  | lost hd => exact absurd hd (hno _ _)
  | labelled hd => exact absurd hd (hno _ _)
  | ticked _ ht => simp [ht]
  | backgrounded => rfl
  | locked => rfl

/-- A new observer of the label takes one event. -/
theorem Labelling.single_step (h : c.Labelling) (env : Env δ) (e : ClientEvent) :
    ∀ o ∈ (c.step env e).client.observers, o.block = .setUpLabel → o.single = true := by
  intro o ho hb
  cases observers_step env ho with
  | kept ho => exact h.single o ho hb
  | lobby hl => rw [hl] at hb; cases hb
  | stats _ _ _ _ hs => rw [hs] at hb; cases hb
  | label _ _ _ _ he => rw [he]

/-- The label arrives, and its observer goes. -/
theorem Labelling.deliver_label (h : c.Labelling) {k : ℕ} {o : Observer} {db : δ}
    (hk : c.observers[k]? = some o) (hb : o.block = .setUpLabel)
    (hinfo : (getInfoForRID db o.ref).isSome = true) :
    (c.deliver k o db).labels = (c.deliver k o db).unlabelled := by
  have hmem := List.mem_of_getElem? hk
  have hpos : 0 < c.labels := List.countP_pos_iff.mpr ⟨o, hmem, decide_eq_true hb⟩
  have herase := countP_eraseIdx hk fun o => decide (o.block = .setUpLabel)
  simp only [hb, decide_true, Bool.toNat_true] at herase
  obtain ⟨info, hget⟩ := Option.isSome_iff_exists.mp hinfo
  have hcount := h.count
  unfold unlabelled at hcount
  cases hvc : c.stats with
  | none =>
    rw [hvc] at hcount
    simp only at hcount
    omega
  | some vc =>
    rw [hvc] at hcount
    have hlast : (c.observers.eraseIdx k).countP (fun o => decide (o.block = .setUpLabel)) = 0 := by
      have hle : c.labels ≤ 1 := by
        rw [hcount]
        simp only
        split <;> omega
      unfold labels at hle
      omega
    simp only [deliver, hb, h.single o hmem hb, if_true, setUpLabelCompletion, hvc, hget, labels,
      unlabelled, hlast]
    rfl

/-- A snapshot for the lobby may load the controller, which then asks for its label. -/
theorem Labelling.deliver_lobby (h : c.Labelling) (hnav : c.Nav) (hroom : c.HasRoom)
    {obs : List Observer} (hobs : obs.countP (fun o => decide (o.block = .setUpLabel)) = c.labels)
    (id : ℕ) (db : δ) (ref : Path) :
    (observeEventBlock { c with observers := obs } id db ref).labels =
      (observeEventBlock { c with observers := obs } id db ref).unlabelled := by
  simp only [observeEventBlock]
  split
  · unfold labels unlabelled
    rw [observers_performRoomStats, stats_performRoomStats, List.countP_append]
    simp only [hobs]
    split
    · rename_i hfront
      obtain ⟨rid, hrid⟩ := Option.isSome_iff_exists.mp
        (hroom ⟨id, List.mem_of_mem_head? hfront⟩)
      have hzero : c.labels = 0 := by
        rw [h.count, unlabelled, hnav.stats_of_lobby hfront]
      rw [hrid, hzero]
      rfl
    · exact h.count
  · exact hobs.trans h.count

/-- The listener leaves the timer and the observers alone. -/
theorem Labelling.deliver_listener (h : c.Labelling) {obs : List Observer}
    (hobs : obs.countP (fun o => decide (o.block = .setUpLabel)) = c.labels) (db : δ) (ref : Path) :
    (listener { c with observers := obs } db ref).labels =
      (listener { c with observers := obs } db ref).unlabelled := by
  have hcount := h.count
  unfold unlabelled at hcount
  simp only [listener]
  cases hvc : c.stats with
  | none =>
    rw [hvc] at hcount
    simp only [unlabelled]
    exact hobs.trans hcount
  | some vc =>
    rw [hvc] at hcount
    simp only
    split
    · unfold labels unlabelled
      rw [observers_performToResults, stats_performToResults]
      exact hobs.trans hcount
    · simp only [unlabelled]
      exact hobs.trans hcount

/-- A snapshot keeps the balance, if what it shows of a room for the label has data. -/
theorem Labelling.deliver (h : c.Labelling) (hnav : c.Nav) (hroom : c.HasRoom) {k : ℕ}
    {o : Observer} {db : δ} (hk : c.observers[k]? = some o)
    (hinfo : o.block = .setUpLabel → (getInfoForRID db o.ref).isSome = true) :
    (c.deliver k o db).labels = (c.deliver k o db).unlabelled := by
  by_cases hb : o.block = .setUpLabel
  · exact h.deliver_label hk hb (hinfo hb)
  have herase := countP_eraseIdx hk fun o => decide (o.block = .setUpLabel)
  simp only [hb, decide_false, Bool.toNat_false, Nat.add_zero] at herase
  cases hsingle : o.single with
  | true =>
    simp only [Client.deliver, hsingle, if_true]
    cases hblock : o.block with
    | lobby id => exact h.deliver_lobby hnav hroom herase id db o.ref
    | stats => exact h.deliver_listener herase db o.ref
    | setUpLabel => exact absurd hblock hb
  | false =>
    simp only [Client.deliver, hsingle, Bool.false_eq_true, if_false]
    cases hblock : o.block with
    | lobby id => exact h.deliver_lobby hnav hroom rfl id db o.ref
    | stats => exact h.deliver_listener rfl db o.ref
    | setUpLabel => exact absurd hblock hb

/-- **The label and its observer.** A step keeps the balance, where rooms shown for the
label have data and no teardown reaches its observer. -/
theorem Labelling.step (h : c.Labelling) (hnav : c.Nav) (hroom : c.HasRoom) (env : Env δ)
    (e : ClientEvent) (hs : ∀ o ∈ c.observers, o.block = .setUpLabel → c.Sheltered o)
    (hinfo : ∀ o db, Delivers env c e o db → o.block = .setUpLabel →
      (getInfoForRID db o.ref).isSome = true) : (c.step env e).client.Labelling := by
  by_cases hl : e = .relaunch
  · subst hl
    exact labelling_launch
  refine ⟨?_, h.single_step env e⟩
  by_cases hk : ∃ k i overlaid, e = .snapshot k i overlaid
  · obtain ⟨k, i, overlaid, rfl⟩ := hk
    simp only [Client.step, snapshot]
    split
    · rename_i o db ho hv
      exact h.deliver hnav hroom ho (hinfo o db ⟨k, i, overlaid, rfl, ho, hv⟩)
    · exact h.count
  · have hno : ∀ k i overlaid, e ≠ .snapshot k i overlaid :=
      fun k i overlaid he => hk ⟨k, i, overlaid, he⟩
    rw [labels_step env hl hno hs, unlabelled_step hnav env hl hno]
    exact h.count

end
end Client

end Unplug.App
