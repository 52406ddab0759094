import Unplug.App.Frame

/-! # What the server goes through

A step of the system applies one write to the server or none. The write is the
oldest of the client's outbox, or the mark of a transaction whose block ran on
the server's value, so properties of the writes on their way become properties
of the writes applied, and those, write by write, of every server state. -/
namespace Unplug.App
open Unplug.Store Unplug.Firebase Unplug.Machine RealtimeDatabase

section
variable {ι δ : Type*} [RealtimeDatabase δ]

/-- The write the server applies in a step. -/
def System.applied (D : Deployment ι) (s : System ι δ) : Event ι → Option RoomOp
  | .client c e => ((s.clients c).step (s.env D c) e).op
  | .clock _ => none

/-- The writes a client's step can have the server apply. -/
theorem applied_cases (D : Deployment ι) {s : System ι δ} {c : ι} {e : ClientEvent} {op : RoomOp}
    (h : s.applied D (.client c e) = some op) :
    (e = .deliverWrite true ∧ ∃ w rest, (s.clients c).outbox = w :: rest ∧ op = w.op) ∨
    (∃ k t value now, e = .compare k ∧ (s.clients c).transactions[k]? = some t ∧
      t.committed = false ∧ t.run = some (value, now) ∧
      leafAt s.db (roomUserTimeRef t.rid (D.user c).uid) = value ∧
      op = .mark t.rid (D.user c).uid now) := by
  have hop : ((s.clients c).step (s.env D c) e).op = some op := h
  cases e with
  | deliverWrite accepted =>
    left
    simp only [Client.step, Client.deliverWrite] at hop
    split at hop
    · rename_i w rest ho
      split at hop
      · rename_i ha
        cases hop
        exact ⟨by rw [ha], w, rest, ho, rfl⟩
      · cases hop
    · cases hop
  | compare k =>
    right
    simp only [Client.step, Client.compare] at hop
    split at hop
    · rename_i rid task value now ht
      split at hop
      · rename_i hv
        cases hop
        exact ⟨k, _, value, now, rfl, ht, rfl, rfl, hv, rfl⟩
      · cases hop
    · cases hop
  | createTUI timeLimit =>
    simp only [Client.step] at hop
    split at hop <;> cases hop
  | _ => cases hop

variable [DecidableEq ι]

theorem db_step_none (D : Deployment ι) {s : System ι δ} {e : Event ι}
    (h : s.applied D e = none) :
    (s.step D e).db = s.db ∧ (s.step D e).history = s.history := by
  cases e with
  | clock t => exact ⟨rfl, rfl⟩
  | client c e =>
    have ho : ((s.clients c).step (s.env D c) e).op = none := h
    simp only [System.step, ho, System.commit, and_self]

theorem db_step_some (D : Deployment ι) {s : System ι δ} {e : Event ι} {op : RoomOp}
    (h : s.applied D e = some op) :
    (s.step D e).db = op.apply s.db ∧ (s.step D e).history = s.history ++ [op.apply s.db] := by
  cases e with
  | clock t => cases h
  | client c e =>
    have ho : ((s.clients c).step (s.env D c) e).op = some op := h
    simp only [System.step, ho, System.commit, and_self]

theorem mem_history_step (D : Deployment ι) {s : System ι δ} {d : δ} (e : Event ι)
    (hd : d ∈ s.history) : d ∈ (s.step D e).history := by
  cases hop : s.applied D e with
  | none => rwa [(db_step_none D hop).2]
  | some op =>
    rw [(db_step_some D hop).2]
    exact List.mem_append_left _ hd

/-- The history of a run ends with the current state. -/
theorem getLast_history (D : Deployment ι) (evs : List (Event ι)) :
    (D.run evs : System ι δ).history.getLast? = some (D.run evs : System ι δ).db := by
  induction evs using List.reverseRecOn with
  | nil => rfl
  | append_singleton evs e ih =>
    rw [run_concat]
    cases hop : (D.run evs : System ι δ).applied D e with
    | none =>
      rw [(db_step_none D hop).1, (db_step_none D hop).2]
      exact ih
    | some op =>
      rw [(db_step_some D hop).1, (db_step_some D hop).2]
      exact List.getLast?_concat

theorem getElem?_history_step (D : Deployment ι) {s : System ι δ} {i : ℕ} {d : δ} (e : Event ι)
    (hd : s.history[i]? = some d) : (s.step D e).history[i]? = some d := by
  cases hop : s.applied D e with
  | none => rwa [(db_step_none D hop).2]
  | some op =>
    rw [(db_step_some D hop).2, List.getElem?_append_left (List.getElem?_eq_some_iff.mp hd).1]
    exact hd

/-! ## Every write on its way -/

/-- What the writes that the steps of a run emit have, all its writes have. -/
theorem run_writes (D : Deployment ι) {P : ι → Write → Prop} {evs : List (Event ι)}
    (h : D.Along (δ := δ) (fun s e => ∀ x e' w, e = .client x e' →
      Client.Emits (s.env D x) (s.clients x) e' w → P x w) evs) (x : ι) :
    ((D.run evs : System ι δ).clients x).Writes (P x) := by
  refine exec_invariant (I := fun s : System ι δ => ∀ x, (s.clients x).Writes (P x))
    (fun x => ⟨fun w hw => (List.not_mem_nil hw).elim, fun a ha => (List.not_mem_nil ha).elim⟩)
    (fun s e hi hp x => ?_) h x
  rcases clients_step D s e x with ⟨-, hsame⟩ | ⟨e', he, hstep⟩
  · rw [hsame]
    exact hi x
  · rw [hstep]
    exact (hi x).step _ e' fun w hw => hp x e' w he hw

/-- The rooms that clients create have the ids that `childByAutoId` gave them. -/
theorem run_creates_keys (D : Deployment ι) (evs : List (Event ι)) (x : ι) :
    ((D.run evs : System ι δ).clients x).Writes fun w =>
      ∀ rid room user, w.op = .createAndJoinRoom rid room user → IsKey rid := by
  refine run_writes D (P := fun _ w => ∀ rid room user,
    w.op = .createAndJoinRoom rid room user → IsKey rid)
    (Deployment.along_iff.mpr fun pre e post _ x e' w _ hw => ?_) x
  cases hw with
  | create =>
    intro rid room user hop
    cases hop
    exact D.autoId_key _
  | join => rintro rid room user hop; cases hop
  | start => rintro rid room user hop; cases hop

/-! ## Every server state -/

/-- A property of databases that the applied writes of a run keep holds in every
state the server has been in. -/
theorem run_db (D : Deployment ι) {P : δ → Prop} (h0 : P RealtimeDatabase.empty)
    {evs : List (Event ι)}
    (h : ∀ pre e op, pre ++ [e] <+: evs → (D.run pre : System ι δ).applied D e = some op →
      P (D.run pre : System ι δ).db → P (op.apply (D.run pre : System ι δ).db)) :
    P (D.run evs : System ι δ).db ∧ ∀ d ∈ (D.run evs : System ι δ).history, P d := by
  induction evs using List.reverseRecOn with
  | nil =>
    refine ⟨h0, ?_⟩
    intro d hd
    rw [List.mem_singleton.mp hd]
    exact h0
  | append_singleton evs e ih =>
    obtain ⟨hcur, hall⟩ := ih fun pre e' op hp => h pre e' op (hp.trans (List.prefix_append _ _))
    rw [run_concat]
    cases ha : (D.run evs : System ι δ).applied D e with
    | none =>
      obtain ⟨hdb, hhist⟩ := db_step_none D ha
      rw [hdb, hhist]
      exact ⟨hcur, hall⟩
    | some op =>
      obtain ⟨hdb, hhist⟩ := db_step_some D ha
      have hnew := h evs e op List.prefix_rfl ha hcur
      rw [hdb, hhist]
      refine ⟨hnew, ?_⟩
      intro d hd
      rcases List.mem_append.mp hd with hd | hd
      · exact hall d hd
      · rw [List.mem_singleton.mp hd]
        exact hnew

/-! ## The server takes writes -/

/-- The writes that the server applies in a run, in order. -/
def Deployment.writes (D : Deployment ι) (δ : Type*) [RealtimeDatabase δ] (evs : List (Event ι)) :
    List RoomOp :=
  outputs (System.step D) (System.applied D) (System.init D : System ι δ) evs

theorem writes_concat (D : Deployment ι) (evs : List (Event ι)) (e : Event ι) :
    D.writes δ (evs ++ [e]) =
      D.writes δ evs ++ ((D.run evs : System ι δ).applied D e).toList := outputs_concat

/-- Each state of the server is made by as many of its writes as its number says. -/
theorem history_writes (D : Deployment ι) (evs : List (Event ι)) :
    (D.run evs : System ι δ).history.length = (D.writes δ evs).length + 1 ∧
      (D.run evs : System ι δ).db = exec RoomOp.apply empty (D.writes δ evs) ∧
      ∀ i d, (D.run evs : System ι δ).history[i]? = some d →
        d = exec RoomOp.apply empty ((D.writes δ evs).take i) := by
  induction evs using List.reverseRecOn with
  | nil =>
    refine ⟨rfl, rfl, ?_⟩
    intro i d hd
    cases i with
    | zero => cases hd; rfl
    | succ i => cases hd
  | append_singleton evs e ih =>
    obtain ⟨hlen, hdb, hall⟩ := ih
    rw [run_concat, writes_concat]
    cases hop : (D.run evs : System ι δ).applied D e with
    | none =>
      obtain ⟨hdb', hhist⟩ := db_step_none D hop
      rw [hdb', hhist, Option.toList_none, List.append_nil]
      exact ⟨hlen, hdb, hall⟩
    | some op =>
      obtain ⟨hdb', hhist⟩ := db_step_some D hop
      have hnew : op.apply (D.run evs : System ι δ).db =
          exec RoomOp.apply empty (D.writes δ evs ++ [op]) := by rw [exec_concat, ← hdb]
      rw [hdb', hhist, Option.toList_some]
      refine ⟨by simp [hlen], hnew, ?_⟩
      intro i d hd
      rcases Nat.lt_or_ge i (D.run evs : System ι δ).history.length with hi | hi
      · rw [List.getElem?_append_left hi] at hd
        rw [List.take_append_of_le_length (by omega)]
        exact hall i d hd
      · obtain rfl : i = (D.run evs : System ι δ).history.length := by
          have hlt := (List.getElem?_eq_some_iff.mp hd).1
          simp only [List.length_append, List.length_singleton] at hlt
          omega
        rw [List.getElem?_concat_length] at hd
        cases hd
        rw [List.take_of_length_le (by simp [hlen])]
        exact hnew

/-- Each state of the server comes from the one before it by the write between them. -/
theorem history_succ (D : Deployment ι) {evs : List (Event ι)} {k : ℕ} {d : δ}
    (hd : (D.run evs : System ι δ).history[k + 1]? = some d) :
    ∃ op d', (D.writes δ evs)[k]? = some op ∧ (D.run evs : System ι δ).history[k]? = some d' ∧
      d = op.apply d' := by
  obtain ⟨hlen, -, hall⟩ := history_writes (δ := δ) D evs
  have hlt := (List.getElem?_eq_some_iff.mp hd).1
  have hk : k < (D.writes δ evs).length := by omega
  have hk' : k < (D.run evs : System ι δ).history.length := by omega
  refine ⟨_, _, List.getElem?_eq_getElem hk, List.getElem?_eq_getElem hk', ?_⟩
  rw [hall _ _ hd, hall k _ (List.getElem?_eq_getElem hk'), List.take_succ_eq_append_getElem hk,
    exec_concat]

/-! ## From some state on -/

/-- `P` holds of the server's state, and of each of its states from number `n` on. -/
def Since (s : System ι δ) (P : δ → Prop) (n : ℕ) : Prop :=
  P s.db ∧ ∀ i d, n ≤ i → s.history[i]? = some d → P d

theorem Since.step {D : Deployment ι} {s : System ι δ} {P : δ → Prop} {n m : ℕ}
    (h : Since s P n) (hnm : n ≤ m) {e : Event ι}
    (hkeep : ∀ op, s.applied D e = some op → P (op.apply s.db)) : Since (s.step D e) P m := by
  cases hop : s.applied D e with
  | none =>
    obtain ⟨hdb, hhist⟩ := db_step_none D hop
    refine ⟨hdb ▸ h.1, ?_⟩
    intro i d hi hget
    rw [hhist] at hget
    exact h.2 i d (by omega) hget
  | some op =>
    obtain ⟨hdb, hhist⟩ := db_step_some D hop
    refine ⟨hdb ▸ hkeep op hop, ?_⟩
    intro i d hi hget
    rw [hhist, List.getElem?_append] at hget
    split at hget
    · exact h.2 i d (by omega) hget
    · rw [List.mem_singleton.mp (List.mem_of_getElem? hget)]
      exact hkeep op hop

/-- What a write makes true holds from the state it leaves. -/
theorem since_applied {D : Deployment ι} {s : System ι δ} {P : δ → Prop} {e : Event ι}
    {op : RoomOp} (hop : s.applied D e = some op) (hp : P (op.apply s.db)) :
    Since (s.step D e) P s.history.length := by
  obtain ⟨hdb, hhist⟩ := db_step_some D hop
  refine ⟨hdb ▸ hp, ?_⟩
  intro i d hi hget
  rw [hhist, List.getElem?_append_right hi] at hget
  rw [List.mem_singleton.mp (List.mem_of_getElem? hget)]
  exact hp

/-- A relation that every applied write satisfies, and that composes, relates each
state of the server to the later ones. -/
theorem run_chain (D : Deployment ι) {R : δ → δ → Prop} (hrefl : ∀ d, R d d)
    (htrans : ∀ a b c, R a b → R b c → R a c) {evs : List (Event ι)}
    (h : ∀ pre e op, pre ++ [e] <+: evs → (D.run pre : System ι δ).applied D e = some op →
      R (D.run pre : System ι δ).db (op.apply (D.run pre : System ι δ).db)) :
    (D.run evs : System ι δ).history.Pairwise R ∧
      ∀ d ∈ (D.run evs : System ι δ).history, R d (D.run evs : System ι δ).db := by
  induction evs using List.reverseRecOn with
  | nil =>
    refine ⟨List.pairwise_singleton R _, ?_⟩
    intro d hd
    rw [List.mem_singleton.mp hd]
    exact hrefl _
  | append_singleton evs e ih =>
    obtain ⟨hpair, hlast⟩ := ih fun pre e' op hp =>
      h pre e' op (hp.trans (List.prefix_append _ _))
    rw [run_concat]
    cases ha : (D.run evs : System ι δ).applied D e with
    | none =>
      obtain ⟨hdb, hhist⟩ := db_step_none D ha
      rw [hdb, hhist]
      exact ⟨hpair, hlast⟩
    | some op =>
      obtain ⟨hdb, hhist⟩ := db_step_some D ha
      have hnew := h evs e op List.prefix_rfl ha
      have hold : ∀ d ∈ (D.run evs : System ι δ).history,
          R d (op.apply (D.run evs : System ι δ).db) := by
        intro d hd
        exact htrans _ _ _ (hlast d hd) hnew
      rw [hdb, hhist]
      refine ⟨List.pairwise_append.mpr ⟨hpair, List.pairwise_singleton R _, ?_⟩, ?_⟩
      · intro d hd d' hd'
        rw [List.mem_singleton.mp hd']
        exact hold d hd
      · intro d hd
        rcases List.mem_append.mp hd with hd | hd
        · exact hold d hd
        · rw [List.mem_singleton.mp hd]
          exact hrefl _

omit [RealtimeDatabase δ] in
/-- Where a list is a chain, an entry is related to itself and those after it. -/
theorem related_of_le {R : δ → δ → Prop} (hrefl : ∀ d, R d d) {l : List δ} (h : l.Pairwise R)
    {i j : ℕ} (hij : i ≤ j) {d d' : δ} (hi : l[i]? = some d) (hj : l[j]? = some d') : R d d' := by
  obtain ⟨hi', rfl⟩ := List.getElem?_eq_some_iff.mp hi
  obtain ⟨hj', rfl⟩ := List.getElem?_eq_some_iff.mp hj
  rcases Nat.lt_or_ge i j with hlt | hge
  · exact List.pairwise_iff_getElem.mp h i j hi' hj' hlt
  · obtain rfl : i = j := by omega
    exact hrefl _

/-- What the applied writes keep holds from every state on that has it. -/
theorem run_since (D : Deployment ι) {P : δ → Prop} {evs : List (Event ι)}
    (h : ∀ pre e op, pre ++ [e] <+: evs → (D.run pre : System ι δ).applied D e = some op →
      P (D.run pre : System ι δ).db → P (op.apply (D.run pre : System ι δ).db))
    {i : ℕ} {d : δ} (hi : (D.run evs : System ι δ).history[i]? = some d) (hp : P d) :
    Since (D.run evs : System ι δ) P i := by
  obtain ⟨hpair, hlast⟩ := run_chain D (R := fun a b => P a → P b) (fun _ => id)
    (fun _ _ _ hab hbc ha => hbc (hab ha)) h
  refine ⟨hlast d (List.mem_of_getElem? hi) hp, ?_⟩
  intro j d' hij hj
  exact related_of_le (fun _ => id) hpair hij hi hj hp

/-! ## Snapshots -/

/-- Whom a step shows which state of the server. -/
def Event.told : Event ι → Option (ι × ℕ)
  | .client c (.snapshot _ i _) => some (c, i)
  | _ => none

/-- A snapshot is no older than what its client has been told before. -/
def InOrder (s : System ι δ) (e : Event ι) : Prop := ∀ p ∈ e.told, (s.clients p.1).seen ≤ p.2

instance (s : System ι δ) (e : Event ι) : Decidable (InOrder s e) :=
  inferInstanceAs (Decidable (∀ p ∈ e.told, _))

/-- What the phone `x` is shown is no older than what it has been told before. -/
def InOrderAt (x : ι) (s : System ι δ) (e : Event ι) : Prop :=
  ∀ p ∈ e.told, p.1 = x → (s.clients x).seen ≤ p.2

instance (x : ι) (s : System ι δ) (e : Event ι) : Decidable (InOrderAt x s e) :=
  inferInstanceAs (Decidable (∀ p ∈ e.told, _ → _))

omit [RealtimeDatabase δ] [DecidableEq ι] in
/-- A step of `x` tells nobody else. -/
theorem InOrderAt.inOrder {x : ι} {s : System ι δ} {e : ClientEvent}
    (h : InOrderAt x s (.client x e)) : InOrder s (.client x e) := by
  intro p hp
  cases e with
  | snapshot k i overlaid =>
    cases hp
    exact h _ rfl rfl
  | _ => cases hp

/-- A snapshot shows a server state as it is. -/
def Event.bare : Event ι → Bool
  | .client _ (.snapshot _ _ overlaid) => !overlaid
  | _ => true

/-- A snapshot shows the client's own pending writes. -/
def Event.overlaid : Event ι → Bool
  | .client _ (.snapshot _ _ overlaid) => overlaid
  | _ => true

end

end Unplug.App
