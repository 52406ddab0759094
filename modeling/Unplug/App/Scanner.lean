import Unplug.App.Client
import Unplug.Machine.Run
import Mathlib.Data.List.Perm.Basic

/-! # The menu's scanner

A scan passes through three blocks: the reader's, its view controller's, and the menu's,
which dismisses the scanner and joins once it is gone. Cancel runs the last two with nil.
Until the dismissal is over both can come any number of times. -/
namespace Unplug.App
open Unplug.Firebase Unplug.Machine

inductive MetadataObjectType
  | qrCode
  | other (name : String)
  deriving DecidableEq

/-- A metadata object of a capture callback. The string is read of machine-readable codes
only, and can be nil for one. -/
structure MetadataObject where
  isMachineReadableCode : Bool
  type : MetadataObjectType
  stringValue : Option String
  deriving DecidableEq

/-- What the reader of `initWithCancelButtonTitle:` looks for. -/
def metadataObjectTypes : List MetadataObjectType := [.qrCode]

def MetadataObject.recognised (o : MetadataObject) : Bool :=
  o.isMachineReadableCode && metadataObjectTypes.contains o.type

section
variable {σ : Type*}

/-- The delegate method of the reader: the first recognised object, then `break`. -/
def QRCodeReader.captureOutput (completionBlock : Option (Option String → σ → σ))
    (metadataObjects : List MetadataObject) (s : σ) : σ :=
  match metadataObjects.find? MetadataObject.recognised, completionBlock with
  | some current, some completionBlock => completionBlock current.stringValue s
  | _, _ => s

/-- The block that the view controller gives its reader. -/
def QRCodeReaderViewController.readerBlock (completionBlock : Option (Option String → σ → σ))
    (resultAsString : Option String) (s : σ) : σ :=
  match completionBlock with
  | some completionBlock => completionBlock resultAsString s
  | none => s

def QRCodeReaderViewController.cancelAction (completionBlock : Option (Option String → σ → σ))
    (s : σ) : σ :=
  match completionBlock with
  | some completionBlock => completionBlock none s
  | none => s

end

/-- The dismissals under way, each with the result its completion block holds, and the
rids that `joinRoomWithRID` was called with, in order. -/
structure Scanner where
  dismissals : List (Option String)
  joins : List (Option String)
  deriving DecidableEq

/-- The menu's block. -/
def Scanner.scanned (resultAsString : Option String) (s : Scanner) : Scanner :=
  { s with dismissals := s.dismissals ++ [resultAsString] }

inductive ScannerEvent
  | captureOutput (metadataObjects : List MetadataObject)
  | cancelAction
  /-- The completion block of the dismissal number `k` runs. -/
  | dismissed (k : ℕ)
  deriving DecidableEq

/-- Joining with nil is a call like any other here; what it does to the process is
Firebase's. -/
def Scanner.step (s : Scanner) : ScannerEvent → Scanner
  | .captureOutput metadataObjects =>
    QRCodeReader.captureOutput (some (QRCodeReaderViewController.readerBlock (some scanned)))
      metadataObjects s
  | .cancelAction => QRCodeReaderViewController.cancelAction (some scanned) s
  | .dismissed k => match s.dismissals[k]? with
    | some result => ⟨s.dismissals.eraseIdx k, s.joins ++ [result]⟩
    | none => s

def Scanner.run (events : List ScannerEvent) : Scanner := exec Scanner.step ⟨[], []⟩ events

/-! ## Results -/

/-- The string of the code that a callback recognises. -/
def ScannerEvent.recognised : ScannerEvent → Option (Option String)
  | .captureOutput metadataObjects =>
    (metadataObjects.find? MetadataObject.recognised).map (·.stringValue)
  | _ => none

/-- What an event hands to the menu's block. -/
def ScannerEvent.result : ScannerEvent → Option (Option String)
  | .cancelAction => some none
  | e => e.recognised

theorem Scanner.step_perm (s : Scanner) (e : ScannerEvent) :
    ((s.step e).joins ++ (s.step e).dismissals).Perm
      (s.joins ++ s.dismissals ++ e.result.toList) := by
  cases e with
  | captureOutput metadataObjects =>
    simp only [Scanner.step, QRCodeReader.captureOutput, ScannerEvent.result,
      ScannerEvent.recognised]
    cases metadataObjects.find? MetadataObject.recognised with
    | none => simp
    | some current => simp [QRCodeReaderViewController.readerBlock, Scanner.scanned]
  | cancelAction =>
    simp [Scanner.step, QRCodeReaderViewController.cancelAction, Scanner.scanned,
      ScannerEvent.result]
  | dismissed k =>
    simp only [Scanner.step, ScannerEvent.result, ScannerEvent.recognised]
    cases hk : s.dismissals[k]? with
    | none => simp
    | some result =>
      obtain ⟨hlt, rfl⟩ := List.getElem?_eq_some_iff.mp hk
      -- the result moves from one list to the other
      have hmove := List.getElem_cons_eraseIdx_perm hlt
      simpa using hmove.append_left s.joins

/-- Every result handed over is joined or waits for its dismissal, once. -/
theorem Scanner.run_perm (events : List ScannerEvent) :
    ((run events).joins ++ (run events).dismissals).Perm
      (events.filterMap ScannerEvent.result) := by
  induction events using List.reverseRecOn with
  | nil => exact .refl _
  | append_singleton events e ih =>
    have hstep := (run events).step_perm e
    rw [run, exec_concat, ← run, List.filterMap_append]
    refine hstep.trans ((ih.append_right _).trans (.of_eq ?_))
    cases he : e.result <;> simp [he]

theorem filterMap_result {events : List ScannerEvent} (h : .cancelAction ∉ events) :
    events.filterMap ScannerEvent.result = events.filterMap ScannerEvent.recognised := by
  refine List.filterMap_congr fun e he => ?_
  cases e with
  | captureOutput metadataObjects => rfl
  | cancelAction => exact absurd he h
  | dismissed k => rfl

/-! ## One scan, one join -/

/-- The scanner joins once at most, with the string of the first recognised code, and not
at all if Cancel comes before any. -/
structure JoinsOnce (events : List ScannerEvent) (joins : List (Option String)) : Prop where
  once : joins.length ≤ 1
  first : ∀ rid ∈ joins, ∃ text, rid = some text ∧
    (events.filterMap ScannerEvent.recognised).head? = some (some text)
  cancelled : ∀ pre post, events = pre ++ .cancelAction :: post →
    pre.filterMap ScannerEvent.recognised = [] → joins = []

/-- **One scan, one join, without Cancel.** When every dismissal is over, the scanner has
joined as it should exactly if Cancel was never tapped and at most one callback recognised
a code, one with a string. -/
theorem joinsOnce_iff {events : List ScannerEvent} (hdone : (Scanner.run events).dismissals = []) :
    JoinsOnce events (Scanner.run events).joins ↔
      .cancelAction ∉ events ∧ (events.filterMap ScannerEvent.recognised = [] ∨
        ∃ text, events.filterMap ScannerEvent.recognised = [some text]) := by
  have hperm := Scanner.run_perm events
  rw [hdone, List.append_nil] at hperm
  constructor
  · intro h
    have hcancel : .cancelAction ∉ events := by
      intro hc
      -- the nil of Cancel is joined like any string
      have hnil : none ∈ (Scanner.run events).joins :=
        hperm.mem_iff.mpr (List.mem_filterMap.mpr ⟨_, hc, rfl⟩)
      obtain ⟨text, ht, -⟩ := h.first _ hnil
      cases ht
    refine ⟨hcancel, ?_⟩
    rw [filterMap_result hcancel] at hperm
    have honce := h.once
    rw [hperm.length_eq] at honce
    cases hr : events.filterMap ScannerEvent.recognised with
    | nil => exact .inl rfl
    | cons rid rest =>
      rw [hr] at hperm honce
      have hrest : rest = [] := List.eq_nil_of_length_eq_zero (by simpa using honce)
      obtain ⟨text, rfl, -⟩ := h.first rid (hperm.mem_iff.mpr List.mem_cons_self)
      exact .inr ⟨text, by rw [hrest]⟩
  · intro h
    obtain ⟨hcancel, hrec⟩ := h
    rw [filterMap_result hcancel] at hperm
    have hnone : ∀ pre post, events = pre ++ .cancelAction :: post → False := by
      intro pre post heq
      exact hcancel (by rw [heq]; simp)
    rcases hrec with hrec | ⟨text, hrec⟩
    · have hj : (Scanner.run events).joins = [] := (hrec ▸ hperm).eq_nil
      rw [hj]
      exact ⟨Nat.zero_le _, fun rid h => (List.not_mem_nil h).elim, fun _ _ _ _ => rfl⟩
    · have hj : (Scanner.run events).joins = [some text] :=
        List.perm_singleton.mp (hrec ▸ hperm)
      rw [hj]
      refine ⟨le_rfl, ?_, fun pre post heq => (hnone pre post heq).elim⟩
      intro rid h
      exact ⟨text, List.mem_singleton.mp h, by rw [hrec]; rfl⟩

/-- A QR code of the given text. -/
def qrCode (text : String) : MetadataObject := ⟨true, .qrCode, some text⟩

theorem joinsOnce_face : JoinsOnce
    [.captureOutput [⟨false, .other "face", none⟩, qrCode "-a", qrCode "-b"], .dismissed 0]
    (Scanner.run [.captureOutput [⟨false, .other "face", none⟩, qrCode "-a", qrCode "-b"],
      .dismissed 0]).joins :=
  (joinsOnce_iff (by decide)).mpr ⟨by decide, .inr ⟨"-a", by decide⟩⟩

/-- Cancel alone joins the room nil. -/
theorem cancel_joins_nil : ¬ ((Scanner.run [.cancelAction, .dismissed 0]).dismissals = [] →
    JoinsOnce [.cancelAction, .dismissed 0]
      (Scanner.run [.cancelAction, .dismissed 0]).joins) := by
  intro h
  have hj := (h (by decide)).cancelled [] [.dismissed 0] rfl rfl
  exact absurd hj (by decide)

/-! ## The client's scan -/

/-- What a join from the menu puts into the outbox; there is no write to the room nil. -/
def Client.joinRoomWithRID (user : User) (c : Client) : Option String → Client
  | some rid => { c with outbox := c.outbox ++ [⟨.joinRoomWithRID rid user, none⟩] }
  | none => c

/-- The client's scan is a scanner that was not cancelled and recognised one code. -/
theorem scanner_refines {c : Client} {user : User} {text : String} {events : List ScannerEvent}
    (hdone : (Scanner.run events).dismissals = []) (hmenu : c.screens = [])
    (hcancel : .cancelAction ∉ events)
    (hrec : events.filterMap ScannerEvent.recognised = [some text]) :
    (Scanner.run events).joins.foldl (Client.joinRoomWithRID user) c = c.scanQRCode text user := by
  have hperm := Scanner.run_perm events
  rw [hdone, List.append_nil, filterMap_result hcancel, hrec] at hperm
  rw [List.perm_singleton.mp hperm, Client.scanQRCode, if_pos hmenu]
  rfl

end Unplug.App
