import Unplug.Store.Database
import Mathlib.Data.List.Sort
import Mathlib.Data.List.Dedup
import Mathlib.Data.String.Basic

/-! # The promises of a realtime database can be kept

`LeafTree` keeps the leaf of every location together with a list of locations
that covers the leaves. It satisfies every promise of `RealtimeDatabase`, with
keys in lexicographic order (the order the headers give for keys that are not
32-bit integers), and it is executable: the runs that show a statement wrong,
or its hypotheses satisfiable, are evaluated on it. -/
namespace Unplug.Store

/-- The leaf at every location, and a list that covers the locations with one. -/
structure LeafTree where
  leaf : Path → Option Leaf
  support : List Path
  covers : ∀ p l, leaf p = some l → p ∈ support

namespace LeafTree

def empty : LeafTree := ⟨fun _ => none, [], fun _ _ h => by cases h⟩

/-- The leaves after a write: the value's below `p`, none above it (the location
now has children), the old ones elsewhere. -/
def writeLeaf (t : LeafTree) (p : Path) (v : Value) (q : Path) : Option Leaf :=
  if p <+: q then v.leafAt (q.drop p.length)
  else if q <+: p ∧ v ≠ Value.null then none
  else t.leaf q

theorem mem_of_lookup {v : List (Path × Leaf)} {q : Path} {l : Leaf} (h : v.lookup q = some l) :
    q ∈ v.map Prod.fst := by
  induction v with
  | nil => cases h
  | cons x v ih =>
    obtain ⟨r, l'⟩ := x
    rw [List.lookup_cons] at h
    split at h
    · rename_i hq
      rw [eq_of_beq hq]; simp
    · exact List.mem_cons_of_mem _ (ih h)

def setValue (t : LeafTree) (p : Path) (v : Value) : LeafTree where
  leaf := t.writeLeaf p v
  support := t.support ++ (v.leaves.map Prod.fst).map (p ++ ·)
  covers q l h := by
    unfold writeLeaf at h
    split at h
    · rename_i hp
      obtain ⟨r, rfl⟩ := hp
      rw [List.drop_left] at h
      exact List.mem_append_right _ (List.mem_map.mpr ⟨r, mem_of_lookup h, rfl⟩)
    · split at h
      · cases h
      · exact List.mem_append_left _ (t.covers q l h)

/-- The key of the child of `p` that the location `q` with data lies in. -/
def childKey (t : LeafTree) (p q : Path) : Option String :=
  if p <+: q ∧ (t.leaf q).isSome then (q.drop p.length).head? else none

def children (t : LeafTree) (p : Path) : List String :=
  (t.support.filterMap (t.childKey p)).dedup.insertionSort (· ≤ ·)

theorem childKey_eq_some {t : LeafTree} {p q : Path} {k : String} :
    t.childKey p q = some k ↔ ∃ r l, q = p ++ k :: r ∧ t.leaf q = some l := by
  unfold childKey
  constructor
  · intro h
    split at h
    · rename_i hq
      obtain ⟨⟨r, rfl⟩, hl⟩ := hq
      obtain ⟨l, hl⟩ := Option.isSome_iff_exists.mp hl
      rw [List.drop_left] at h
      cases r with
      | nil => cases h
      | cons k' r =>
        rw [List.head?_cons] at h
        cases h
        exact ⟨r, l, rfl, hl⟩
    · cases h
  · intro hx
    obtain ⟨r, l, rfl, hl⟩ := hx
    simp [hl]

theorem mem_children {t : LeafTree} {p : Path} {k : String} :
    k ∈ t.children p ↔ ∃ q l, t.leaf (p ++ k :: q) = some l := by
  unfold children
  rw [List.mem_insertionSort, List.mem_dedup, List.mem_filterMap]
  constructor
  · intro hx
    obtain ⟨q, _, hq⟩ := hx
    obtain ⟨r, l, rfl, hl⟩ := childKey_eq_some.mp hq
    exact ⟨r, l, hl⟩
  · intro hx
    obtain ⟨q, l, hl⟩ := hx
    exact ⟨_, t.covers _ l hl, childKey_eq_some.mpr ⟨q, l, rfl, hl⟩⟩

theorem children_sorted (t : LeafTree) (p : Path) :
    (t.children p).Pairwise fun a b => decide (a < b) = true := by
  have hle : (t.children p).Pairwise (· ≤ ·) := List.pairwise_insertionSort _ _
  have hnd : (t.children p).Nodup :=
    (List.perm_insertionSort _ _).nodup_iff.mpr (List.nodup_dedup _)
  refine (hle.and hnd).imp fun h => ?_
  exact decide_eq_true (lt_of_le_of_ne h.1 h.2)

instance : RealtimeDatabase LeafTree where
  empty := empty
  leafAt t := t.leaf
  children := children
  setValue := setValue
  keyLt a b := decide (a < b)
  leafAt_empty _ := rfl
  leafAt_setValue_below t p v q := by
    simp [setValue, writeLeaf]
  leafAt_setValue_above t p v q hq hne := by
    have hp : ¬ p <+: q := fun h => hne (hq.eq_of_length_le h.length_le)
    by_cases hv : v = Value.null <;> simp [setValue, writeLeaf, hp, hq, hv]
  leafAt_setValue_apart t p v q hp hq := by
    simp [setValue, writeLeaf, hp, hq]
  mem_children _ _ _ := mem_children
  children_sorted := children_sorted
  keyLt_irrefl a := decide_eq_false (lt_irrefl a)
  keyLt_trans a b c hab hbc :=
    decide_eq_true ((of_decide_eq_true hab).trans (of_decide_eq_true hbc))
  keyLt_total a b := by
    rcases lt_trichotomy a b with h | h | h
    · exact .inr (.inl (decide_eq_true h))
    · exact .inl h
    · exact .inr (.inr (decide_eq_true h))

end LeafTree

end Unplug.Store
