import SpinGlass.Lib.Text
import Mathlib.Logic.Relation

/-!
# Delimiters — what more delimiters do to the fields of a text

`AddDelim d u v` says that `v` is `u` with one more `d`, at an end or next
to another, and `Respaced d u v` that it has any number more. A delimiter
puts an empty field among the others, unless it closes the last field:
`AddDelim.cases` says so for one, `Respaced.cases` for many.
-/

namespace Text

variable {α : Type*}

/-- One delimiter more: at an end, or next to another. -/
inductive AddDelim (d : α) : List α → List α → Prop
  | start (u : List α) : AddDelim d u (d :: u)
  | finish (u : List α) : AddDelim d u (u ++ [d])
  | inside (u v : List α) : AddDelim d (u ++ d :: v) (u ++ d :: d :: v)

/-- Any number of delimiters more. -/
abbrev Respaced (d : α) : List α → List α → Prop := Relation.ReflTransGen (AddDelim d)

theorem AddDelim.mem_iff {d c : α} (hc : c ≠ d) {u v : List α} (h : AddDelim d u v) :
    c ∈ v ↔ c ∈ u := by
  cases h <;> simp [hc]

theorem AddDelim.delim_mem {d : α} {u v : List α} (h : AddDelim d u v) : d ∈ v := by
  cases h <;> simp

theorem Respaced.mem_iff {d c : α} (hc : c ≠ d) {u v : List α} (h : Respaced d u v) :
    c ∈ v ↔ c ∈ u := by
  induction h with
  | refl => exact Iff.rfl
  | tail _ hstep ih => exact (hstep.mem_iff hc).trans ih

theorem Respaced.delim_mem {d : α} {u v : List α} (h : Respaced d u v) (hu : d ∈ u) : d ∈ v := by
  cases h with
  | refl => exact hu
  | tail _ hstep => exact hstep.delim_mem

/-! ## Empty fields -/

/-- `ts'` is `ts` with empty fields among the others, and ends in one if `ts` does. -/
structure Padded (ts ts' : List (List α)) : Prop where
  sublist : ts.Sublist ts'
  fields : ts'.filter (· ≠ []) = ts.filter (· ≠ [])
  last : ts.getLast? = some [] → ts'.getLast? = some []

theorem Padded.refl (ts : List (List α)) : Padded ts ts := ⟨List.Sublist.refl _, rfl, id⟩

theorem Padded.trans {ts ts' ts'' : List (List α)} (h : Padded ts ts') (h' : Padded ts' ts'') :
    Padded ts ts'' :=
  ⟨h.sublist.trans h'.sublist, h'.fields.trans h.fields, fun hl => h'.last (h.last hl)⟩

theorem Padded.insert (xs ys : List (List α)) : Padded (xs ++ ys) (xs ++ [] :: ys) := by
  refine ⟨(List.sublist_cons_self _ _).append_left xs, by simp, fun h => ?_⟩
  cases hys : ys.getLast? with
  | none =>
      rw [List.getLast?_eq_none_iff.mp hys]
      simp
  | some y => simpa [List.getLast?_append, List.getLast?_cons, hys] using h

variable [DecidableEq α] {d : α} {u v : List α}

/-- **What one delimiter does to the fields.** -/
theorem AddDelim.cases (h : AddDelim d u v) :
    (∃ xs ys, getlines d u = xs ++ ys ∧ getlines d v = xs ++ [] :: ys) ∨
      (v = u ++ [d] ∧ u.getLast? ≠ some d ∧ getlines d v = getlines d u) := by
  cases h with
  | start => exact Or.inl ⟨[], getlines d u, rfl, by simp [getlines]⟩
  | finish =>
      by_cases hlast : u.getLast? = some d
      · obtain ⟨u', rfl⟩ := List.getLast?_eq_some_iff.mp hlast
        refine Or.inl ⟨getlines d (u' ++ [d]), [], by simp, ?_⟩
        rw [List.append_assoc, List.singleton_append, getlines_append_cons]
        simp [getlines]
      · by_cases hne : u = []
        · subst hne
          exact Or.inl ⟨[], [], rfl, by simp [getlines]⟩
        · exact Or.inr ⟨rfl, hlast, getlines_concat hne hlast⟩
  | inside u' v' =>
      refine Or.inl ⟨getlines d (u' ++ [d]), getlines d v', getlines_append_cons d u' v', ?_⟩
      rw [getlines_append_cons]
      simp [getlines]

theorem AddDelim.padded (h : AddDelim d u v) :
    Padded (getlines d u) (getlines d v) := by
  rcases h.cases with ⟨xs, ys, hu, hv⟩ | ⟨-, -, heq⟩
  · rw [hu, hv]
    exact Padded.insert xs ys
  · rw [heq]
    exact Padded.refl _

theorem Respaced.padded (h : Respaced d u v) :
    Padded (getlines d u) (getlines d v) := by
  induction h with
  | refl => exact Padded.refl _
  | tail _ hstep ih => exact ih.trans hstep.padded

/-- **What any number of delimiters does to the fields**: nothing, when there are none, or
one that closes the last field; else there are more fields. -/
theorem Respaced.cases (h : Respaced d u v) :
    v = u ∨ (v = u ++ [d] ∧ u.getLast? ≠ some d ∧ getlines d v = getlines d u) ∨
      (getlines d u).length < (getlines d v).length := by
  induction h with
  | refl => exact Or.inl rfl
  | @tail v w huv hstep ih =>
      have hle := (Respaced.padded huv).sublist.length_le
      rcases hstep.cases with ⟨xs, ys, hv, hw⟩ | ⟨hw, hlast, heq⟩
      · right
        right
        rw [hw]
        rw [hv] at hle
        simp only [List.length_append, List.length_cons] at hle ⊢
        omega
      · rcases ih with rfl | ⟨rfl, -, -⟩ | hlt
        · exact Or.inr (Or.inl ⟨hw, hlast, heq⟩)
        · simp at hlast
        · rw [heq]
          exact Or.inr (Or.inr hlt)

end Text
