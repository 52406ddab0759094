import Unplug.App.Client
import Unplug.Machine.Run

/-! # Tearing listeners down

The lobby and the stats controller attach their observers at two paths of a room, and
both tear down by removing whatever is registered at one of them. Over any sequence of
appearances the registry shows what that leaves behind and what it takes from others. -/
namespace Unplug.App
open Unplug.Store Unplug.Firebase Unplug.Machine

/-! ## The registry -/

/-- A controller that attaches observers; of each kind there can be any number. -/
inductive Controller
  | lobby (id : ℕ)
  | stats (id : ℕ)
  deriving DecidableEq

/-- A registered observer and the controller that attached it. -/
structure Registered where
  ref : Path
  owner : Controller
  single : Bool
  deriving DecidableEq

def Controller.setUpListener (rid : String) : Controller → List Registered
  | .lobby id => [⟨roomRef rid, .lobby id, true⟩, ⟨roomRef rid, .lobby id, false⟩]
  | .stats id => [⟨roomUsersRef rid, .stats id, false⟩]

/-- `removeAllObservers` at the users of the room, in both controllers. -/
def tearDownListener (rid : String) (registered : List Registered) : List Registered :=
  registered.filter fun o => o.ref ≠ roomUsersRef rid

structure Registry where
  registered : List Registered
  visible : List Controller
  deriving DecidableEq

inductive Appearance
  | viewWillAppear (p : Controller)
  | viewWillDisappear (p : Controller)
  /-- The server's value reaches the registered observer number `k`. -/
  | value (k : ℕ)
  deriving DecidableEq

/-- The rid does not change while controllers come and go. -/
def Registry.step (rid : String) (s : Registry) : Appearance → Registry
  | .viewWillAppear p => ⟨s.registered ++ p.setUpListener rid, p :: s.visible⟩
  | .viewWillDisappear p => ⟨tearDownListener rid s.registered, s.visible.filter (· ≠ p)⟩
  | .value k => match s.registered[k]? with
    | some o => if o.single then { s with registered := s.registered.eraseIdx k } else s
    | none => s

def Registry.run (rid : String) (calls : List Appearance) : Registry :=
  exec (Registry.step rid) ⟨[], []⟩ calls

theorem Registry.run_concat (rid : String) (calls : List Appearance) (e : Appearance) :
    Registry.run rid (calls ++ [e]) = (Registry.run rid calls).step rid e := exec_concat _ _ _

/-- The disappearance of `p` takes the observers that `p` attached and no observer of
another controller on the screen. -/
structure Exact (rid : String) (s : Registry) (p : Controller) : Prop where
  detached : ∀ o ∈ (s.step rid (.viewWillDisappear p)).registered, o.owner ≠ p
  kept : ∀ o ∈ s.registered, o.owner ≠ p → o.owner ∈ s.visible →
    o ∈ (s.step rid (.viewWillDisappear p)).registered

theorem roomRef_ne_users (rid : String) : roomRef rid ≠ roomUsersRef rid := by
  intro h
  have hlen := congrArg List.length h
  simp [roomUsersRef] at hlen

/-! ## What is registered -/

/-- Each registered observer is one that its owner attaches, and the lasting observer of
a lobby that has appeared is there. -/
structure Attached (rid : String) (calls : List Appearance) (s : Registry) : Prop where
  owned : ∀ o ∈ s.registered, o ∈ o.owner.setUpListener rid
  appeared : ∀ o ∈ s.registered, .viewWillAppear o.owner ∈ calls
  lobby : ∀ id, .viewWillAppear (.lobby id) ∈ calls →
    ⟨roomRef rid, .lobby id, false⟩ ∈ s.registered

theorem owner_of_setUpListener {rid : String} {p : Controller} {o : Registered}
    (h : o ∈ p.setUpListener rid) : o.owner = p := by
  cases p with
  | lobby id =>
    rcases List.mem_cons.mp h with rfl | h
    · rfl
    · rw [List.mem_singleton.mp h]
  | stats id => rw [List.mem_singleton.mp h]

/-- A single-event observer that has fired is gone, the others stay. -/
theorem mem_value {rid : String} {s : Registry} {k : ℕ} {o : Registered} (ho : o ∈ s.registered)
    (hs : o.single = false) : o ∈ (s.step rid (.value k)).registered := by
  simp only [Registry.step]
  split
  · rename_i o' hk
    split
    · rename_i hs'
      refine (List.mem_eraseIdx_iff_getElem?).mpr ?_
      obtain ⟨j, hj⟩ := List.mem_iff_getElem?.mp ho
      refine ⟨j, ?_, hj⟩
      intro he
      subst he
      rw [hk] at hj
      cases hj
      rw [hs] at hs'
      cases hs'
    · exact ho
  · exact ho

theorem mem_of_mem_value {rid : String} {s : Registry} {k : ℕ} {o : Registered}
    (ho : o ∈ (s.step rid (.value k)).registered) : o ∈ s.registered := by
  simp only [Registry.step] at ho
  split at ho
  · split at ho
    · exact List.mem_of_mem_eraseIdx ho
    · exact ho
  · exact ho

theorem Registry.run_attached (rid : String) (calls : List Appearance) :
    Attached rid calls (Registry.run rid calls) := by
  induction calls using List.reverseRecOn with
  | nil =>
    refine ⟨?_, ?_, ?_⟩
    · exact fun o ho => (List.not_mem_nil ho).elim
    · exact fun o ho => (List.not_mem_nil ho).elim
    · exact fun id h => (List.not_mem_nil h).elim
  | append_singleton calls e ih =>
    rw [Registry.run_concat]
    generalize Registry.run rid calls = s at ih
    cases e with
    | viewWillAppear p =>
      refine ⟨?_, ?_, ?_⟩
      · intro o ho
        rcases List.mem_append.mp ho with ho | ho
        · exact ih.owned o ho
        · exact (owner_of_setUpListener ho).symm ▸ ho
      · intro o ho
        rcases List.mem_append.mp ho with ho | ho
        · exact List.mem_append_left _ (ih.appeared o ho)
        · simp [owner_of_setUpListener ho]
      · intro id h
        rcases List.mem_append.mp h with h | h
        · exact List.mem_append_left _ (ih.lobby id h)
        · cases List.mem_singleton.mp h
          exact List.mem_append_right _ (List.mem_cons_of_mem _ List.mem_cons_self)
    | viewWillDisappear p =>
      refine ⟨?_, ?_, ?_⟩
      · exact fun o ho => ih.owned o (List.mem_of_mem_filter ho)
      · exact fun o ho => List.mem_append_left _ (ih.appeared o (List.mem_of_mem_filter ho))
      · intro id h
        have hcalls : .viewWillAppear (.lobby id) ∈ calls := by simpa using h
        exact List.mem_filter.mpr ⟨ih.lobby id hcalls, by simpa using roomRef_ne_users rid⟩
    | value k =>
      refine ⟨?_, ?_, ?_⟩
      · exact fun o ho => ih.owned o (mem_of_mem_value ho)
      · exact fun o ho => List.mem_append_left _ (ih.appeared o (mem_of_mem_value ho))
      · intro id h
        exact mem_value (ih.lobby id (by simpa using h)) rfl

/-! ## Exactness -/

/-- The stats controllers on the screen have their listener. -/
def Listening (rid : String) (s : Registry) : Prop :=
  ∀ id, .stats id ∈ s.visible → ⟨roomUsersRef rid, .stats id, false⟩ ∈ s.registered

/-- A disappearance is exact where no lobby that has appeared disappears, and no other
stats controller is on the screen. -/
def Harmless (calls : List Appearance) (s : Registry) (p : Controller) : Prop :=
  (∀ id, p = .lobby id → .viewWillAppear p ∉ calls) ∧
    ∀ id, .stats id ∈ s.visible → p = .stats id

theorem exact_iff_harmless {rid : String} {calls : List Appearance} {s : Registry}
    (h : Attached rid calls s) (hl : Listening rid s) (p : Controller) :
    Exact rid s p ↔ Harmless calls s p := by
  constructor
  · intro hx
    refine ⟨?_, ?_⟩
    · intro id hp hm
      subst hp
      -- the lobby's lasting observer is not where the tear-down looks
      exact hx.detached _ (List.mem_filter.mpr ⟨h.lobby id hm, by simpa using roomRef_ne_users rid⟩)
        rfl
    · intro id hv
      by_contra hp
      have hkept := hx.kept _ (hl id hv) (Ne.symm hp) hv
      have hne := (List.mem_filter.mp hkept).2
      simp at hne
  · intro hx
    obtain ⟨hlobby, hstats⟩ := hx
    refine ⟨?_, ?_⟩
    · intro o ho howner
      obtain ⟨hmem, href⟩ := List.mem_filter.mp ho
      have hset := h.owned o hmem
      rw [howner] at hset
      cases p with
      | lobby id => exact hlobby id rfl (howner ▸ h.appeared o hmem)
      | stats id =>
        rw [List.mem_singleton.mp hset] at href
        simp at href
    · intro o ho hne hv
      refine List.mem_filter.mpr ⟨ho, ?_⟩
      have hset := h.owned o ho
      cases hown : o.owner with
      | lobby id =>
        rw [hown] at hset
        have href : o.ref = roomRef rid := by
          rcases List.mem_cons.mp hset with rfl | hset
          · rfl
          · rw [List.mem_singleton.mp hset]
        simpa [href] using roomRef_ne_users rid
      | stats id =>
        rw [hown] at hv hne
        exact absurd (hstats id hv).symm hne

theorem Listening.step {rid : String} {calls : List Appearance} {s : Registry}
    (hl : Listening rid s) {e : Appearance}
    (hx : ∀ p, e = .viewWillDisappear p → Harmless calls s p) : Listening rid (s.step rid e) := by
  cases e with
  | viewWillAppear p =>
    intro id hv
    rcases List.mem_cons.mp hv with rfl | hv
    · exact List.mem_append_right _ (List.mem_singleton.mpr rfl)
    · exact List.mem_append_left _ (hl id hv)
  | viewWillDisappear p =>
    intro id hv
    -- the only stats controller that was on the screen is the one that disappears
    obtain ⟨hv, hne⟩ := List.mem_filter.mp hv
    have hp := (hx p rfl).2 id hv
    rw [hp] at hne
    simp at hne
  | value k =>
    intro id hv
    refine mem_value (hl id ?_) rfl
    simp only [Registry.step] at hv
    split at hv
    · split at hv <;> exact hv
    · exact hv

/-- **Tear-down is exact exactly where there is nothing for it to miss or to take.** Over
any sequence of appearances and values, every disappearance removes the observers of its
controller and keeps those of the others on the screen, exactly if no lobby that has
appeared disappears, and none disappears while another stats controller is on the screen. -/
theorem tearDown_exact_iff (rid : String) (calls : List Appearance) :
    (∀ pre p post, calls = pre ++ .viewWillDisappear p :: post →
      Exact rid (Registry.run rid pre) p) ↔
      ∀ pre p post, calls = pre ++ .viewWillDisappear p :: post →
        (∀ id, p = .lobby id → .viewWillAppear p ∉ pre) ∧
          ∀ id, .stats id ∈ (Registry.run rid pre).visible → p = .stats id := by
  have hcut : ∀ (Q : List Appearance → Controller → Prop) (calls : List Appearance),
      (∀ pre p post, calls = pre ++ .viewWillDisappear p :: post → Q pre p) ↔
        ∀ pre e post, calls = pre ++ e :: post → ∀ p, e = .viewWillDisappear p → Q pre p := by
    intro Q calls
    constructor
    · intro h pre e post heq p he
      exact h pre p post (he ▸ heq)
    · intro h pre p post heq
      exact h pre _ post heq p rfl
  have hmain : ((∀ pre e post, calls = pre ++ e :: post → ∀ p, e = .viewWillDisappear p →
      Exact rid (Registry.run rid pre) p) ↔
      ∀ pre e post, calls = pre ++ e :: post → ∀ p, e = .viewWillDisappear p →
        Harmless pre (Registry.run rid pre) p) ∧
      ((∀ pre e post, calls = pre ++ e :: post → ∀ p, e = .viewWillDisappear p →
        Harmless pre (Registry.run rid pre) p) → Listening rid (Registry.run rid calls)) := by
    induction calls using List.reverseRecOn with
    | nil =>
      refine ⟨?_, fun _ id hv => (List.not_mem_nil hv).elim⟩
      constructor <;> intro _ pre e post heq <;> simp at heq
    | append_singleton calls e ih =>
      obtain ⟨hiff, hlisten⟩ := ih
      rw [forall_split_concat, forall_split_concat, Registry.run_concat]
      refine ⟨?_, fun h => (hlisten h.1).step h.2⟩
      rw [hiff]
      refine and_congr_right fun h => forall_congr' fun p => imp_congr_right fun _ => ?_
      exact exact_iff_harmless (Registry.run_attached rid calls) (hlisten h) p
  exact (hcut _ calls).trans (hmain.1.trans (hcut _ calls).symm)

/-! ## The client's registry -/

/-- Whose listener a block of the client is; `setUpLabel` reads once and is nobody's. -/
def Observer.registered (o : Observer) : Option Registered :=
  match o.block with
  | .lobby id => some ⟨o.ref, .lobby id, o.single⟩
  | .stats => some ⟨o.ref, .stats 0, o.single⟩
  | .setUpLabel => none

def Client.registered (c : Client) : List Registered := c.observers.filterMap Observer.registered

/-- The controller that a screen belongs to. -/
def Screen.controller : Screen → Option Controller
  | .lobby id => some (.lobby id)
  | .stats => some (.stats 0)
  | _ => none

theorem viewWillAppear_refines {c : Client} {rid : String} (hrid : c.currentRID = some rid)
    {screen : Screen} {p : Controller} (hp : screen.controller = some p)
    (visible : List Controller) :
    ((⟨c.registered, visible⟩ : Registry).step rid (.viewWillAppear p)).registered =
      (c.viewWillAppear (some screen)).registered := by
  cases screen with
  | lobby id =>
    cases hp
    simp [Registry.step, Controller.setUpListener, Client.registered, Client.viewWillAppear,
      Client.lobbySetUpListener, hrid, Observer.registered]
  | stats =>
    cases hp
    simp [Registry.step, Controller.setUpListener, Client.registered, Client.viewWillAppear,
      Client.statsSetUpListener, hrid, Observer.registered]
  | setup id => cases hp
  | results => cases hp

theorem viewWillDisappear_refines {c : Client} {rid : String} (hrid : c.currentRID = some rid)
    {screen : Screen} {p : Controller} (hp : screen.controller = some p)
    (visible : List Controller) :
    ((⟨c.registered, visible⟩ : Registry).step rid (.viewWillDisappear p)).registered =
      (c.viewWillDisappear (some screen)).registered := by
  have htear : tearDownListener rid c.registered = c.tearDownListener.registered := by
    simp only [tearDownListener, Client.registered, Client.tearDownListener, hrid]
    rw [List.filter_filterMap, List.filterMap_filter]
    refine List.filterMap_congr fun o _ => ?_
    unfold Observer.registered
    by_cases href : o.ref = roomUsersRef rid
    · cases o.block <;> simp [Option.filter, href]
    · cases o.block <;> simp [Option.filter, href]
  cases screen with
  | lobby id => exact htear
  | stats => exact htear
  | setup id => cases hp
  | results => cases hp

/-! ## A lobby that disappears -/

/-- Whoever presents a controller has disappeared when it appears. -/
def Disciplined (presents : Controller → Controller → Prop) (rid : String)
    (calls : List Appearance) : Prop :=
  ∀ pre q post, calls = pre ++ .viewWillAppear q :: post →
    ∀ p, presents p q → p ∉ (Registry.run rid pre).visible

/-- A lobby presents the stats controller, and its observer of the room stays behind. -/
theorem lobby_left_behind :
    ¬ (Disciplined (fun p q => p = .lobby 0 ∧ q = .stats 0) "-"
        [.viewWillAppear (.lobby 0), .viewWillDisappear (.lobby 0), .viewWillAppear (.stats 0)] →
      ∀ pre p post, [.viewWillAppear (.lobby 0), .viewWillDisappear (.lobby 0),
          .viewWillAppear (.stats 0)] = pre ++ Appearance.viewWillDisappear p :: post →
        Exact "-" (Registry.run "-" pre) p) := by
  intro h
  have hdisc : Disciplined (fun p q => p = .lobby 0 ∧ q = .stats 0) "-"
      [.viewWillAppear (.lobby 0), .viewWillDisappear (.lobby 0), .viewWillAppear (.stats 0)] := by
    intro pre q post heq p hp
    obtain ⟨rfl, rfl⟩ := hp
    have hpre : pre = [.viewWillAppear (.lobby 0), .viewWillDisappear (.lobby 0)] := by
      rcases pre with _ | ⟨a, _ | ⟨b, _ | ⟨c, pre⟩⟩⟩ <;> simp_all
    rw [hpre]
    decide
  have hx := h hdisc [.viewWillAppear (.lobby 0)] (.lobby 0) [.viewWillAppear (.stats 0)] rfl
  exact hx.detached ⟨roomRef "-", .lobby 0, false⟩ (by decide +kernel) rfl

end Unplug.App
