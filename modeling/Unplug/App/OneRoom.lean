import Unplug.App.Follows

/-! # One screen, one room

The rid of a room lives in one global that answers overwrite and every screen
re-reads. So the screens above a lobby agree on the lobby's room exactly as long
as no answer for another room arrives below them. -/
namespace Unplug.App
open Unplug.Store Unplug.Firebase Unplug.Machine RealtimeDatabase

namespace Client

variable {c c' : Client}

/-! ## The property -/

/-- Everything that belongs to the lobby `id` and to the stats controller above
it goes by the rid `rid`: the QR image, the observers of both, the reads and
writes to come, and the losses on their way. -/
structure InRoom (c : Client) (id : ℕ) (vc : QRCodeGeneratorViewController) (rid : String) :
    Prop where
  qrCode : vc.qrCode = some rid
  lobbyObserved : ∀ r, vc.observedRID = some r → r = rid
  lobbyObservers : ∀ o ∈ c.observers, o.block = .lobby id → o.At rid
  currentRID : c.currentRID = some rid
  statsObserved : ∀ vc r, c.stats = some vc → vc.observedRID = some r → r = rid
  statsObservers : ∀ o ∈ c.observers, o.block = .stats ∨ o.block = .setUpLabel → o.At rid
  checks : ∀ ch ∈ c.checks, ch.rid = rid
  transactions : ∀ t ∈ c.transactions, t.rid = rid

/-- Every presented lobby is in one room. -/
def OneRoom (c : Client) : Prop :=
  ∀ id, Screen.lobby id ∈ c.screens → ∃ vc rid, c.lobbies[id]? = some vc ∧ InRoom c id vc rid

theorem OneRoom.follows (h : c.OneRoom) (hf : Follows c c') : c'.OneRoom := by
  intro id hid
  obtain ⟨vc, rid, hvc, hr⟩ := h id (hf.screens id hid)
  obtain ⟨vc', hvc', hq, ho⟩ := hf.lobbies id vc hvc
  have hcur : ∀ {r}, c.currentRID = some r → r = rid := fun hrr =>
    (Option.some.inj (hr.currentRID.symm.trans hrr)).symm
  refine ⟨vc', rid, hvc', hq.trans hr.qrCode, fun r hrr => ?_, fun o hmem hb => ?_,
    hf.rid.trans hr.currentRID, fun v r hs hrr => ?_, fun o hmem hb => ?_, fun ch hmem => ?_,
    fun t hmem => ?_⟩
  · rcases ho r hrr with hrr | hrr
    · exact hr.lobbyObserved r hrr
    · exact hcur hrr
  · rcases hf.observers o hmem with hmem | ⟨r, hrr, ha⟩
    · exact hr.lobbyObservers o hmem hb
    · exact hcur hrr ▸ ha
  · rcases hf.observed v r hs hrr with ⟨w, hw, hwr⟩ | hrr
    · exact hr.statsObserved w r hw hwr
    · exact hcur hrr
  · rcases hf.observers o hmem with hmem | ⟨r, hrr, ha⟩
    · exact hr.statsObservers o hmem hb
    · exact hcur hrr ▸ ha
  · rcases hf.checks ch hmem with hmem | hrr
    · exact hr.checks ch hmem
    · exact hcur hrr
  · rcases hf.transactions t hmem with ⟨t₀, hm₀, he⟩ | ⟨ch, hm₀, he⟩
    · exact he ▸ hr.transactions t₀ hm₀
    · exact he ▸ hr.checks ch hm₀

/-- A lobby below keeps a completion's segue from showing a second one. -/
theorem presentLobby_of_lobby (h : c.Nav) {sender : Option Screen} (bet : Option ℚ)
    (hs : sender = none ∨ ∃ n, sender = some (.setup n)) {id : ℕ}
    (hid : Screen.lobby id ∈ c.screens) : c.presentLobby sender bet = c := by
  unfold presentLobby present
  refine if_neg fun hfront => ?_
  exact (h.shape.base_of_sender hs hfront).no_lobby id hid

/-- A new lobby is in the room its creator or its guest was just let into. -/
theorem OneRoom.presentLobby (h : c.Nav) {rid : String} (hrid : c.currentRID = some rid)
    {sender : Option Screen} (bet : Option ℚ)
    (hs : sender = none ∨ ∃ n, sender = some (.setup n))
    (hno : ∀ id, Screen.lobby id ∉ c.screens) : (c.presentLobby sender bet).OneRoom := by
  unfold Client.presentLobby present
  split
  · rename_i hfront
    have hb : Base c.screens := h.shape.base_of_sender hs hfront
    have hl : c.stats.isSome = false := by
      cases hl : c.stats.isSome with
      | false => rfl
      | true => exact absurd (h.stats_iff.mpr hl) hb.no_stats
    obtain ⟨hch, htr, -, hobs, -⟩ := h.idle hl
    have hnone : c.stats = none := by simpa using hl
    intro id hid
    rcases List.mem_cons.mp hid with hid | hid
    · obtain rfl := Screen.lobby.inj hid
      refine ⟨.viewDidLoad c.currentRID bet, rid, List.getElem?_concat_length,
        ⟨hrid, fun r hr => by simp [QRCodeGeneratorViewController.viewDidLoad] at hr,
          fun o ho hblock => ?_, hrid, fun vc r hvc => ?_, fun o ho hblock => ?_,
          fun ch hmem => ?_, fun t hmem => ?_⟩⟩
      · exact absurd (h.observer_lt o ho _ hblock) (lt_irrefl _)
      · simp [hnone] at hvc
      · obtain ⟨j, hj⟩ := hobs o ho
        rw [hj] at hblock; rcases hblock with hblock | hblock <;> cases hblock
      · simp [hch] at hmem
      · simp [htr] at hmem
    · exact absurd hid (hno id)
  · exact fun id hid => absurd hid (hno id)

end Client

/-! ## Runs -/

section
variable {ι δ : Type*} [DecidableEq ι] [RealtimeDatabase δ]

/-- No answer lets the client `x` into another room while it has a lobby open. -/
def SteadyRID (x : ι) (s : System ι δ) (e : Event ι) : Prop :=
  e = .client x .ack → ∀ rid, (s.clients x).admits = some rid →
    (∃ id, Screen.lobby id ∈ (s.clients x).screens) → (s.clients x).currentRID = some rid

theorem exists_lobby_iff {l : List Screen} :
    (∃ s ∈ l, (∃ id, s = Screen.lobby id)) ↔ ∃ id, Screen.lobby id ∈ l := by
  constructor
  · intro hx
    obtain ⟨s, hs, id, rfl⟩ := hx
    exact ⟨id, hs⟩
  · intro hx
    obtain ⟨id, hs⟩ := hx
    exact ⟨_, hs, id, rfl⟩

instance : DecidablePred fun s : Screen => ∃ id, s = .lobby id
  | .lobby id => .isTrue ⟨id, rfl⟩
  | .setup _ => .isFalse fun ⟨_, h⟩ => by cases h
  | .stats => .isFalse fun ⟨_, h⟩ => by cases h
  | .results => .isFalse fun ⟨_, h⟩ => by cases h

instance (l : List Screen) : Decidable (∃ id, Screen.lobby id ∈ l) :=
  decidable_of_iff _ exists_lobby_iff

instance (x : ι) (s : System ι δ) (e : Event ι) : Decidable (SteadyRID x s e) :=
  inferInstanceAs (Decidable (_ → ∀ rid ∈ (s.clients x).admits, _))

theorem oneRoom_step (D : Deployment ι) {s : System ι δ} {x : ι} {e : Event ι}
    (hnav : (s.clients x).Nav) (hsent : (s.clients x).Writes Client.Sent)
    (h : (s.clients x).OneRoom) (hsteady : SteadyRID x s e) :
    ((s.step D e).clients x).OneRoom := by
  rcases clients_step D s e x with ⟨-, hsame⟩ | ⟨e, rfl, hown⟩
  · rw [hsame]
    exact h
  · rw [hown]
    by_cases hl : e = .relaunch
    · subst hl
      exact fun id hid => (List.not_mem_nil hid).elim
    by_cases ha : e = .ack
    · subst ha
      simp only [Client.step]
      rcases (s.clients x).ack_cases with ⟨-, hack⟩ | ⟨w, answer, rest, -, -, hack⟩ |
        ⟨w, n, rest, bet, hacks, -, hadmit, hack⟩
      · rw [hack]; exact h
      · rw [hack]; exact h.follows (.of_same rfl rfl rfl rfl rfl rfl rfl)
      · have hs : Client.Sent w := hsent.2 (w, some n) (by rw [hacks]; exact List.mem_cons_self)
        rw [hack]
        by_cases hopen : ∃ id, Screen.lobby id ∈ (s.clients x).screens
        · obtain ⟨id, hid⟩ := hopen
          have hrid := hsteady rfl _ hadmit ⟨id, hid⟩
          -- the answer is for the room the lobby is in, so nothing changes
          rw [Client.presentLobby_of_lobby (c := (s.clients x).admitted w.op.rid n rest) hnav bet
            hs hid]
          exact h.follows (.of_same hrid.symm rfl rfl rfl rfl rfl rfl)
        · exact Client.OneRoom.presentLobby (c := (s.clients x).admitted w.op.rid n rest) hnav rfl
            bet hs fun id hid => hopen ⟨id, hid⟩
    · exact h.follows (Client.follows_step _ ha hl)

/-- A client of a run whose rid is steady is in one room. -/
theorem run_oneRoom (D : Deployment ι) {evs : List (Event ι)} {x : ι}
    (h : D.Along (δ := δ) (SteadyRID x) evs) : ((D.run evs : System ι δ).clients x).OneRoom := by
  refine trace_invariant (I := fun _ s => (s.clients x).OneRoom)
    (fun id hid => (List.not_mem_nil hid).elim) (fun pre e hi hp => ?_) h
  obtain ⟨hnav, hsent⟩ := run_nav (δ := δ) D pre x
  exact oneRoom_step D hnav hsent hi hp

/-- **One screen, one room, exactly while the rid is steady.** In every state of
a run the open lobby, its Start button and the stats controller above it go by
one rid if and only if no answer for another room arrived below an open lobby. -/
theorem oneRoom_iff_steady (D : Deployment ι) (evs : List (Event ι)) (x : ι) :
    (∀ pre, pre <+: evs → ((D.run pre : System ι δ).clients x).OneRoom) ↔
      D.Along (δ := δ) (SteadyRID x) evs := by
  constructor
  · intro h
    refine Deployment.along_iff.mpr fun pre e post hevs => ?_
    intro heq rid hadmit hx1
    subst heq
    obtain ⟨id, hid⟩ := hx1
    obtain ⟨hnav, hsent⟩ := run_nav (δ := δ) D pre x
    obtain ⟨vc, r, hvc, hr⟩ := h pre ⟨_, hevs.symm⟩ id hid
    have hnext := h (pre ++ [.client x .ack]) ⟨post, by rw [hevs]; simp⟩
    rw [run_concat, step_client_self] at hnext
    simp only [Client.step] at hnext
    rcases ((D.run pre : System ι δ).clients x).ack_cases with ⟨hn, -⟩ |
      ⟨w, answer, rest, -, hn, -⟩ | ⟨w, n, rest, bet, hacks, -, hadmit', hack⟩
    · have hnil : ((D.run pre : System ι δ).clients x).acks = [] := hn
      simp [Client.admits, hnil] at hadmit
    · exact absurd (hn.symm.trans hadmit) (by simp)
    · obtain rfl : w.op.rid = rid := Option.some.inj (hadmit'.symm.trans hadmit)
      have hs : Client.Sent w := hsent.2 (w, some n) (by rw [hacks]; exact List.mem_cons_self)
      rw [hack, Client.presentLobby_of_lobby (c := Client.admitted _ w.op.rid n rest) hnav bet
        hs hid] at hnext
      -- the lobby's QR image is what it was, the rid is the new one
      obtain ⟨vc', r', hvc', hr'⟩ := hnext id hid
      obtain rfl : vc = vc' := Option.some.inj (hvc.symm.trans hvc')
      have hq : r = r' := Option.some.inj (hr.qrCode.symm.trans hr'.qrCode)
      have hcur : w.op.rid = r' := Option.some.inj hr'.currentRID
      exact hr.currentRID.trans (by rw [hq, hcur])
  · intro h pre hx
    obtain ⟨post, rfl⟩ := hx
    exact run_oneRoom D (Along.append.mp h).1

end

/-- Two Create taps before the first answer: the lobby that the first one opens
shows its own room, while the rid is the second one's. -/
theorem second_create_moves_lobby :
    ¬ ∀ pre, pre <+: [Event.client false .showSetup, .client false (.editBetAmount (some 5)),
        .client false (.createTUI 60), .client false (.createTUI 60),
        .client false (.deliverWrite true), .client false .ack, .client false .appear,
        .client false .appear, .client false (.deliverWrite true), .client false .ack] →
      ((twoPhones.run pre : System Bool LeafTree).clients false).OneRoom := by
  intro h
  obtain ⟨vc, rid, hvc, hr⟩ := h _ List.prefix_rfl 0 (by decide +kernel)
  have hq : (some vc).bind (·.qrCode) = some "-" := by rw [← hvc]; decide +kernel
  have hcur : some rid = some "-a" := by rw [← hr.currentRID]; decide +kernel
  have hrid : some rid = some "-" := hr.qrCode.symm.trans hq
  rw [hcur] at hrid
  exact absurd hrid (by decide)

end Unplug.App
