import Mathlib.Order.Lattice
import Mathlib.Tactic.Common

/-!
# OrderedMap — a map as the list of its entries in the order of the keys

Every key stands in the list once (`sorted`). `set` is the assignment of a
value to a key, which is inserted at its place or keeps it; `find?` of an
assignment says all about it.
-/

/-- The entries of a map, in the order of their keys. -/
structure OrderedMap (K V : Type) [LinearOrder K] where
  entries : List (K × V)
  sorted : (entries.map Prod.fst).Pairwise (· < ·)

namespace OrderedMap

variable {K V : Type} [LinearOrder K]

/-- The value at a key in a list of entries. -/
def find (k : K) : List (K × V) → Option V
  | [] => none
  | (k', v) :: l => if k = k' then some v else find k l

/-- The entries after an assignment. -/
def insert (k : K) (v : V) : List (K × V) → List (K × V)
  | [] => [(k, v)]
  | (k', v') :: l =>
      if k < k' then (k, v) :: (k', v') :: l
      else if k = k' then (k, v) :: l
      else (k', v') :: insert k v l

theorem find_insert (k k' : K) (v : V) (l : List (K × V)) :
    find k' (insert k v l) = if k' = k then some v else find k' l := by
  induction l with
  | nil => rfl
  | cons p l ih =>
      obtain ⟨k₀, v₀⟩ := p
      by_cases hlt : k < k₀
      · simp [insert, find, hlt]
      · by_cases heq : k = k₀
        · subst heq
          by_cases hk : k' = k
          · simp [insert, find, hk]
          · simp [insert, find, hk]
        · by_cases hk : k' = k₀
          · subst hk
            simp [insert, find, hlt, heq, Ne.symm heq]
          · simp [insert, find, hlt, heq, hk, ih]

theorem mem_keys_insert (k k' : K) (v : V) (l : List (K × V)) :
    k' ∈ (insert k v l).map Prod.fst ↔ k' = k ∨ k' ∈ l.map Prod.fst := by
  induction l with
  | nil => simp [insert]
  | cons p l ih =>
      obtain ⟨k₀, v₀⟩ := p
      by_cases hlt : k < k₀
      · simp [insert, hlt]
      · by_cases heq : k = k₀
        · simp [insert, heq]
        · simp only [insert, hlt, heq, if_false, List.map_cons, List.mem_cons, ih]
          rw [or_left_comm]

theorem sorted_insert (k : K) (v : V) {l : List (K × V)}
    (h : (l.map Prod.fst).Pairwise (· < ·)) :
    ((insert k v l).map Prod.fst).Pairwise (· < ·) := by
  induction l with
  | nil => simp [insert]
  | cons p l ih =>
      obtain ⟨k₀, v₀⟩ := p
      obtain ⟨hhead, htail⟩ := List.pairwise_cons.mp h
      by_cases hlt : k < k₀
      · have hall : ∀ k' ∈ k₀ :: l.map Prod.fst, k < k' := by
          intro k' hk'
          rcases List.mem_cons.mp hk' with rfl | hk'
          · exact hlt
          · exact hlt.trans (hhead k' hk')
        simpa [insert, hlt] using List.pairwise_cons.mpr ⟨hall, h⟩
      · by_cases heq : k = k₀
        · subst heq
          simpa [insert] using h
        · have hgt : k₀ < k := lt_of_le_of_ne (not_lt.mp hlt) (Ne.symm heq)
          have hall : ∀ k' ∈ (insert k v l).map Prod.fst, k₀ < k' := by
            intro k' hk'
            rcases (mem_keys_insert k k' v l).mp hk' with rfl | hk'
            · exact hgt
            · exact hhead k' hk'
          simpa [insert, hlt, heq] using List.pairwise_cons.mpr ⟨hall, ih htail⟩

/-- The map without entries. -/
def empty : OrderedMap K V := ⟨[], List.Pairwise.nil⟩

/-- `m[k] = v`. -/
def set (m : OrderedMap K V) (k : K) (v : V) : OrderedMap K V :=
  ⟨insert k v m.entries, sorted_insert k v m.sorted⟩

/-- The value at a key. -/
def find? (m : OrderedMap K V) (k : K) : Option V := find k m.entries

/-- The keys, in their order. -/
def keys (m : OrderedMap K V) : List K := m.entries.map Prod.fst

@[simp] theorem find?_empty (k : K) : (empty : OrderedMap K V).find? k = none := rfl

theorem find?_set (m : OrderedMap K V) (k k' : K) (v : V) :
    (m.set k v).find? k' = if k' = k then some v else m.find? k' :=
  find_insert k k' v m.entries

@[simp] theorem find?_set_self (m : OrderedMap K V) (k : K) (v : V) :
    (m.set k v).find? k = some v := by
  rw [find?_set, if_pos rfl]

theorem find?_set_of_ne (m : OrderedMap K V) {k k' : K} (h : k' ≠ k) (v : V) :
    (m.set k v).find? k' = m.find? k' := by
  rw [find?_set, if_neg h]

/-- The keys are those with a value. -/
theorem mem_keys (m : OrderedMap K V) (k : K) : k ∈ m.keys ↔ (m.find? k).isSome := by
  show k ∈ m.entries.map Prod.fst ↔ (find k m.entries).isSome
  induction m.entries with
  | nil => simp [find]
  | cons p l ih =>
      obtain ⟨k₀, v₀⟩ := p
      by_cases hk : k = k₀
      · simp [find, hk]
      · rw [List.map_cons, List.mem_cons, ih, find, if_neg hk]
        exact or_iff_right hk

end OrderedMap
