import Mathlib.Algebra.Order.Ring.Rat
import Mathlib.Data.List.Infix

/-! # A database that is one tree of JSON values

A location is the list of keys from the root. Data sits in the leaves, so a
database is known by the leaf at each location, and the children of a location
by the leaves below it. `RealtimeDatabase` is the client library's interface
with what its headers promise: a write overwrites the data at its location and
at all child locations, touches nothing apart from it, and children come sorted
by key. The order of keys is the library's own and stays abstract here. -/
namespace Unplug.Store

/-- A location, by the keys from the root down to it. -/
abbrev Path := List String

/-- The data of a location without children: an `NSNumber` or an `NSString`. -/
inductive Leaf
  | num (q : ℚ)
  | str (s : String)
  deriving DecidableEq

/-- Data to write, by the leaves it puts at the paths below the location. -/
structure Value where
  leaves : List (Path × Leaf)
  deriving DecidableEq

namespace Value

/-- No data: writing it removes what is there. -/
def null : Value := ⟨[]⟩

def leaf (l : Leaf) : Value := ⟨[([], l)]⟩

def num (q : ℚ) : Value := leaf (.num q)

def str (s : String) : Value := leaf (.str s)

/-- The dictionary with the given entries. -/
def dict (entries : List (String × Value)) : Value :=
  ⟨entries.flatMap fun (k, v) => v.leaves.map fun (p, l) => (k :: p, l)⟩

/-- The dictionary with one more entry, as `setValue:forKey:` adds it. -/
def setForKey (v : Value) (k : String) (x : Value) : Value :=
  ⟨v.leaves ++ (dict [(k, x)]).leaves⟩

def leafAt (v : Value) (p : Path) : Option Leaf := v.leaves.lookup p

@[simp] theorem leafAt_null (p : Path) : null.leafAt p = none := rfl

@[simp] theorem leafAt_leaf_nil (l : Leaf) : (leaf l).leafAt [] = some l := rfl

@[simp] theorem leafAt_leaf_cons (l : Leaf) (k : String) (p : Path) :
    (leaf l).leafAt (k :: p) = none := rfl

@[simp] theorem leafAt_num_nil (q : ℚ) : (num q).leafAt [] = some (.num q) := rfl

@[simp] theorem leafAt_num_cons (q : ℚ) (k : String) (p : Path) :
    (num q).leafAt (k :: p) = none := rfl

@[simp] theorem leafAt_str_nil (s : String) : (str s).leafAt [] = some (.str s) := rfl

@[simp] theorem leafAt_str_cons (s k : String) (p : Path) : (str s).leafAt (k :: p) = none := rfl

@[simp] theorem leafAt_dict_nil (p : Path) : (dict []).leafAt p = none := rfl

theorem lookup_map_cons (v : List (Path × Leaf)) (k k' : String) (p : Path) :
    List.lookup (k' :: p) (v.map fun (q, l) => (k :: q, l)) =
      if k' = k then v.lookup p else none := by
  induction v with
  | nil => simp
  | cons x v ih =>
    obtain ⟨q, l⟩ := x
    by_cases hk : k' = k
    · subst hk
      simp only [List.map_cons, List.lookup_cons, ih, if_true, beq_self_eq_true, Bool.true_and,
        List.cons_beq_cons]
    · have hb : (k' == k) = false := by simpa using hk
      simp only [List.map_cons, List.lookup_cons, ih, if_neg hk, hb, List.cons_beq_cons,
        Bool.false_and]

@[simp] theorem leafAt_dict_cons (k k' : String) (v : Value) (es : List (String × Value))
    (p : Path) :
    (dict ((k, v) :: es)).leafAt (k' :: p) =
      (if k' = k then v.leafAt p else none).or ((dict es).leafAt (k' :: p)) := by
  simp only [leafAt, dict, List.flatMap_cons, List.lookup_append, lookup_map_cons]

/-- A dictionary is no leaf. -/
@[simp] theorem leafAt_dict_top (es : List (String × Value)) : (dict es).leafAt [] = none := by
  refine List.lookup_eq_none_iff.mpr fun x hx => ?_
  obtain ⟨e, -, hx⟩ := List.mem_flatMap.mp hx
  obtain ⟨y, -, rfl⟩ := List.mem_map.mp hx
  simp

@[simp] theorem leafAt_setForKey (v x : Value) (k : String) (p : Path) :
    (v.setForKey k x).leafAt p = (v.leafAt p).or ((dict [(k, x)]).leafAt p) := by
  simp only [leafAt, setForKey, List.lookup_append]

end Value

/-- The database interface the program calls, with the promises it relies on. -/
class RealtimeDatabase (δ : Type*) where
  empty : δ
  /-- The leaf at a location, when the location holds data without children. -/
  leafAt : δ → Path → Option Leaf
  /-- The keys of a location's children, in the order a snapshot lists them. -/
  children : δ → Path → List String
  setValue : δ → Path → Value → δ
  keyLt : String → String → Bool
  leafAt_empty : ∀ p, leafAt empty p = none
  leafAt_setValue_below : ∀ db p v q, leafAt (setValue db p v) (p ++ q) = v.leafAt q
  leafAt_setValue_above : ∀ db p v q, q <+: p → q ≠ p →
    leafAt (setValue db p v) q = if v = Value.null then leafAt db q else none
  leafAt_setValue_apart : ∀ db p v q, ¬ p <+: q → ¬ q <+: p →
    leafAt (setValue db p v) q = leafAt db q
  mem_children : ∀ db p k, k ∈ children db p ↔ ∃ q l, leafAt db (p ++ k :: q) = some l
  children_sorted : ∀ db p, (children db p).Pairwise fun a b => keyLt a b = true
  keyLt_irrefl : ∀ a, keyLt a a = false
  keyLt_trans : ∀ a b c, keyLt a b = true → keyLt b c = true → keyLt a c = true
  keyLt_total : ∀ a b, a = b ∨ keyLt a b = true ∨ keyLt b a = true

open RealtimeDatabase

attribute [simp] leafAt_empty

section
variable {δ : Type*} [RealtimeDatabase δ]

/-- `updateChildValues:` writes each listed child and leaves the other keys of
the location alone. -/
def updateChildValues (db : δ) (p : Path) (values : List (String × Value)) : δ :=
  values.foldl (fun db (k, v) => setValue db (p ++ [k]) v) db

/-- Any data at the location or below it. -/
def HasData (db : δ) (p : Path) : Prop := ∃ q l, leafAt db (p ++ q) = some l

/-- Put a leaf at a location, or remove what is there. -/
def setLeaf (db : δ) (p : Path) : Option Leaf → δ
  | some l => setValue db p (Value.leaf l)
  | none => setValue db p Value.null

@[simp] theorem leafAt_setValue_self (db : δ) (p : Path) (v : Value) :
    leafAt (setValue db p v) p = v.leafAt [] := by
  simpa using leafAt_setValue_below db p v []

/-- Where two paths part, a write to one leaves the other alone. -/
theorem leafAt_setValue_of_parts (db : δ) (v : Value) (p a b : Path) {k k' : String} (hk : k ≠ k') :
    leafAt (setValue db (p ++ k :: a) v) (p ++ k' :: b) = leafAt db (p ++ k' :: b) := by
  refine leafAt_setValue_apart db _ v _ ?_ ?_ <;>
    rw [List.prefix_append_right_inj, List.cons_prefix_cons]
  · exact fun h => hk h.1
  · exact fun h => hk h.1.symm

theorem hasData_of_append {db : δ} {p a : Path} (h : HasData db (p ++ a)) : HasData db p := by
  obtain ⟨q, l, hl⟩ := h
  exact ⟨a ++ q, l, by rw [← List.append_assoc]; exact hl⟩

theorem mem_children_iff {db : δ} {p : Path} {k : String} :
    k ∈ children db p ↔ HasData db (p ++ [k]) := by
  simp [mem_children, HasData]

theorem keyLt_asymm {a b : String} (h : keyLt δ a b = true) : keyLt δ b a = false := by
  by_contra hb
  have := keyLt_trans (δ := δ) a b a h (by simpa using hb)
  rw [keyLt_irrefl] at this; cases this

theorem children_nodup (db : δ) (p : Path) : (children db p).Nodup := by
  refine (children_sorted db p).imp fun hab he => ?_
  rw [he, keyLt_irrefl] at hab
  cases hab

/-- Locations with the same children in either database list them alike. -/
theorem children_eq_of_mem_iff {db db' : δ} {p p' : Path}
    (h : ∀ k, k ∈ children db p ↔ k ∈ children db' p') : children db p = children db' p' := by
  have hperm : (children db p).Perm (children db' p') :=
    (List.perm_ext_iff_of_nodup (children_nodup db p) (children_nodup db' p')).mpr h
  refine hperm.eq_of_pairwise (fun a b _ _ hab hba => ?_) (children_sorted db p)
    (children_sorted db' p')
  rw [keyLt_asymm hab] at hba; cases hba

/-! ## Leaves have nothing below them -/

/-- The value puts no leaf below another one. -/
def Value.Exclusive (v : Value) : Prop :=
  ∀ p k q, v.leafAt p ≠ none → v.leafAt (p ++ k :: q) = none

/-- The database is a tree: no location with a leaf has children. -/
def Exclusive (db : δ) : Prop := ∀ p k q, leafAt db p ≠ none → leafAt db (p ++ k :: q) = none

theorem exclusive_empty : Exclusive (empty : δ) := fun p _ _ h => absurd (leafAt_empty p) h

theorem exclusive_leaf (l : Leaf) : (Value.leaf l).Exclusive := by
  intro p k q h
  cases p with
  | nil => rfl
  | cons k' p => exact absurd rfl h

/-- Writing a tree into a tree leaves a tree. -/
theorem Exclusive.setValue {db : δ} (h : Exclusive db) (p : Path) {v : Value} (hv : v.Exclusive) :
    Exclusive (setValue db p v) := by
  intro a k q ha
  by_cases hpa : p <+: a
  · obtain ⟨s, rfl⟩ := hpa
    rw [leafAt_setValue_below] at ha
    rw [List.append_assoc, leafAt_setValue_below]
    exact hv s k q ha
  by_cases hap : a <+: p
  · -- above the written location only removing leaves anything
    have hne : a ≠ p := fun he => hpa (he ▸ List.prefix_rfl)
    rw [leafAt_setValue_above db p v a hap hne] at ha
    have hnull : v = Value.null := by
      by_contra hn; rw [if_neg hn] at ha; exact ha rfl
    subst hnull
    rw [if_pos rfl] at ha
    by_cases hpb : p <+: a ++ k :: q
    · obtain ⟨s, hs⟩ := hpb
      rw [← hs, leafAt_setValue_below]; rfl
    · by_cases hbp : a ++ k :: q <+: p
      · rw [leafAt_setValue_above db p _ _ hbp fun he => hpb (he ▸ List.prefix_rfl), if_pos rfl]
        exact h a k q ha
      · rw [leafAt_setValue_apart db p _ _ hpb hbp]
        exact h a k q ha
  · rw [leafAt_setValue_apart db p v a hpa hap] at ha
    have hpb : ¬ p <+: a ++ k :: q := by
      intro hpb
      rcases List.prefix_or_prefix_of_prefix hpb (List.prefix_append a (k :: q)) with hh | hh
      · exact hpa hh
      · exact hap hh
    have hbp : ¬ a ++ k :: q <+: p := fun hbp => hap ((List.prefix_append a (k :: q)).trans hbp)
    rw [leafAt_setValue_apart db p v _ hpb hbp]
    exact h a k q ha

/-- In a tree a new leaf in the place of an old one changes nothing else. -/
theorem leafAt_replace {db : δ} (h : Exclusive db) {p : Path} (hp : leafAt db p ≠ none) (l : Leaf)
    (q : Path) :
    leafAt (setValue db p (Value.leaf l)) q = if q = p then some l else leafAt db q := by
  by_cases hqp : q = p
  · rw [if_pos hqp, hqp, leafAt_setValue_self]; rfl
  rw [if_neg hqp]
  by_cases hpq : p <+: q
  · obtain ⟨s, rfl⟩ := hpq
    rw [leafAt_setValue_below]
    cases s with
    | nil => simp at hqp
    | cons k s => rw [h p k s hp]; rfl
  by_cases hap : q <+: p
  · obtain ⟨s, rfl⟩ := hap
    cases s with
    | nil => simp at hqp
    | cons k s =>
      have hq : leafAt db q = none := by
        by_contra hn; exact hp (h q k s hn)
      rw [leafAt_setValue_above db _ _ q (List.prefix_append _ _) hqp, hq]
      exact ite_self _
  · exact leafAt_setValue_apart db p _ q hpq hap

/-- A value other than nothing, without a leaf of its own at the top, leaves no
leaf on the way to it. -/
theorem leafAt_on_the_way (db : δ) {p q : Path} {v : Value} (hn : v ≠ Value.null)
    (hv : v.leafAt [] = none) (hq : q <+: p) : leafAt (setValue db p v) q = none := by
  by_cases he : q = p
  · rw [he, leafAt_setValue_self, hv]
  · rw [leafAt_setValue_above db p v q hq he, if_neg hn]

end

end Unplug.Store
