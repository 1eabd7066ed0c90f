import Mathlib.Data.List.Induction
import Mathlib.Data.List.Nodup
import Mathlib.Tactic.Common

/-!
# KeepFirst — the first entry with each key

`keepFirst key l` reads `l` from the left and keeps an entry unless an
entry with the same key has been kept. The lemmas say what is kept, that
the keys of what is kept are distinct, and how the operation meets `map`
and `filter`.
-/

namespace KeepFirst

variable {α β γ δ : Type*} [DecidableEq β] [DecidableEq δ]

/-- The entries of `l` whose key no earlier entry has. -/
def keepFirst (key : α → β) (l : List α) : List α :=
  l.foldl (fun kept x => if key x ∈ kept.map key then kept else kept ++ [x]) []

variable {key : α → β}

@[simp] theorem keepFirst_nil : keepFirst key [] = [] := rfl

theorem keepFirst_concat (l : List α) (x : α) :
    keepFirst key (l ++ [x])
      = if key x ∈ (keepFirst key l).map key then keepFirst key l
        else keepFirst key l ++ [x] := by
  rw [keepFirst, List.foldl_append]
  rfl

theorem keepFirst_concat_of_mem {l : List α} {x : α}
    (h : key x ∈ (keepFirst key l).map key) : keepFirst key (l ++ [x]) = keepFirst key l := by
  rw [keepFirst_concat, if_pos h]

theorem keepFirst_concat_of_notMem {l : List α} {x : α}
    (h : key x ∉ (keepFirst key l).map key) :
    keepFirst key (l ++ [x]) = keepFirst key l ++ [x] := by
  rw [keepFirst_concat, if_neg h]

/-- Reading on only adds to what is kept. -/
theorem keepFirst_append (l l' : List α) :
    ∃ more, keepFirst key (l ++ l') = keepFirst key l ++ more := by
  induction l' using List.reverseRecOn with
  | nil => exact ⟨[], by simp⟩
  | append_singleton l' x ih =>
      obtain ⟨more, ih⟩ := ih
      rw [← List.append_assoc, keepFirst_concat]
      split
      · exact ⟨more, ih⟩
      · exact ⟨more ++ [x], by rw [ih, List.append_assoc]⟩

/-- Nothing is kept that was not read. -/
theorem mem_of_mem_keepFirst {l : List α} {x : α} (h : x ∈ keepFirst key l) : x ∈ l := by
  induction l using List.reverseRecOn with
  | nil => exact h
  | append_singleton l y ih =>
      rw [keepFirst_concat] at h
      split at h
      · exact List.mem_append_left _ (ih h)
      · rcases List.mem_append.mp h with h | h
        · exact List.mem_append_left _ (ih h)
        · exact List.mem_append_right _ h

/-- Every key that was read is the key of something kept. -/
theorem mem_map_keepFirst {l : List α} {b : β} :
    b ∈ (keepFirst key l).map key ↔ b ∈ l.map key := by
  induction l using List.reverseRecOn generalizing b with
  | nil => rfl
  | append_singleton l y ih =>
      rw [keepFirst_concat]
      split
      · rename_i hy
        rw [ih] at hy ⊢
        rw [List.map_append, List.mem_append, List.map_singleton, List.mem_singleton]
        constructor
        · exact Or.inl
        · rintro (h | rfl)
          · exact h
          · exact hy
      · rw [List.map_append, List.map_append, List.mem_append, List.mem_append, ih]

theorem nodup_map_keepFirst (l : List α) : ((keepFirst key l).map key).Nodup := by
  induction l using List.reverseRecOn with
  | nil => exact List.nodup_nil
  | append_singleton l y ih =>
      rw [keepFirst_concat]
      split
      · exact ih
      · rename_i hy
        rw [List.map_append, List.map_singleton]
        exact List.nodup_append.mpr ⟨ih, by simp, by
          intro a ha b hb hab
          rw [List.mem_singleton] at hb
          subst hb hab
          exact hy ha⟩

/-- Keeping the entries themselves apart leaves no entry out. -/
theorem mem_keepFirst_id {l : List β} {b : β} : b ∈ keepFirst id l ↔ b ∈ l := by
  have h : b ∈ (keepFirst id l).map id ↔ b ∈ l.map id := mem_map_keepFirst
  rwa [List.map_id, List.map_id] at h

theorem nodup_keepFirst_id (l : List β) : (keepFirst id l).Nodup := by
  have h : ((keepFirst id l).map id).Nodup := nodup_map_keepFirst l
  rwa [List.map_id] at h

/-- What is kept of a second list: what it keeps itself, without the keys of the first. -/
theorem keepFirst_append_eq (l l' : List α) :
    keepFirst key (l ++ l')
      = keepFirst key l ++ (keepFirst key l').filter fun x => key x ∉ l.map key := by
  induction l' using List.reverseRecOn with
  | nil => simp
  | append_singleton l' y ih =>
      rw [← List.append_assoc, keepFirst_concat, keepFirst_concat, ih]
      have hmem : key y ∈ (keepFirst key l ++ (keepFirst key l').filter
          fun x => key x ∉ l.map key).map key ↔ key y ∈ l.map key ∨ key y ∈ l'.map key := by
        rw [← ih, mem_map_keepFirst, List.map_append, List.mem_append]
      by_cases hy : key y ∈ l.map key
      · rw [if_pos (hmem.mpr (Or.inl hy))]
        split
        · rfl
        · simp only [List.filter_append, List.filter_singleton, hy, not_true_eq_false, decide_false,
            cond_false, List.append_nil]
      · by_cases hy' : key y ∈ l'.map key
        · rw [if_pos (hmem.mpr (Or.inr hy')), if_pos (mem_map_keepFirst.mpr hy')]
        · rw [if_neg (fun h => (hmem.mp h).elim hy hy'), if_neg fun h => hy' (mem_map_keepFirst.mp h)]
          simp only [List.filter_append, List.filter_singleton, hy, not_false_eq_true, decide_true,
            cond_true, List.append_assoc]

/-- Renaming entries commutes with keeping, when it neither merges nor splits
the keys of the entries read. -/
theorem map_keepFirst {key' : γ → δ} {f : α → γ} {l : List α}
    (h : ∀ x ∈ l, ∀ y ∈ l, key' (f x) = key' (f y) ↔ key x = key y) :
    (keepFirst key l).map f = keepFirst key' (l.map f) := by
  induction l using List.reverseRecOn with
  | nil => rfl
  | append_singleton l y ih =>
      have hl := ih fun x hx z hz => h x (by simp [hx]) z (by simp [hz])
      have hmem : key' (f y) ∈ (keepFirst key' (l.map f)).map key'
          ↔ key y ∈ (keepFirst key l).map key := by
        rw [mem_map_keepFirst, mem_map_keepFirst, List.map_map]
        simp only [List.mem_map, Function.comp_apply]
        constructor
        · rintro ⟨x, hx, hxy⟩
          exact ⟨x, hx, (h x (by simp [hx]) y (by simp)).mp hxy⟩
        · rintro ⟨x, hx, hxy⟩
          exact ⟨x, hx, (h x (by simp [hx]) y (by simp)).mpr hxy⟩
      rw [List.map_append, List.map_singleton, keepFirst_concat, keepFirst_concat]
      by_cases hy : key y ∈ (keepFirst key l).map key
      · rw [if_pos hy, if_pos (hmem.mpr hy), hl]
      · rw [if_neg hy, if_neg (fun hc => hy (hmem.mp hc)), List.map_append, hl,
          List.map_singleton]

/-- Keys that tell the same entries apart keep the same entries. -/
theorem keepFirst_congr {key' : α → δ} {l : List α}
    (h : ∀ x ∈ l, ∀ y ∈ l, key' x = key' y ↔ key x = key y) :
    keepFirst key l = keepFirst key' l := by
  have hmap : (keepFirst key l).map id = keepFirst key' (l.map id) := map_keepFirst h
  rwa [List.map_id, List.map_id] at hmap

/-- A test that reads the key only may be made before or after. -/
theorem filter_keepFirst {p : α → Bool} {l : List α}
    (h : ∀ x ∈ l, ∀ y ∈ l, key x = key y → p x = p y) :
    (keepFirst key l).filter p = keepFirst key (l.filter p) := by
  induction l using List.reverseRecOn with
  | nil => rfl
  | append_singleton l y ih =>
      have hl := ih fun x hx z hz => h x (by simp [hx]) z (by simp [hz])
      rw [List.filter_append, keepFirst_concat]
      by_cases hp : p y = true
      · have hmem : key y ∈ (keepFirst key (l.filter p)).map key
            ↔ key y ∈ (keepFirst key l).map key := by
          rw [mem_map_keepFirst, mem_map_keepFirst]
          simp only [List.mem_map, List.mem_filter]
          constructor
          · rintro ⟨x, ⟨hx, -⟩, hxy⟩
            exact ⟨x, hx, hxy⟩
          · rintro ⟨x, hx, hxy⟩
            exact ⟨x, ⟨hx, by rw [h x (by simp [hx]) y (by simp) hxy, hp]⟩, hxy⟩
        rw [List.filter_singleton, hp, cond_true, keepFirst_concat]
        by_cases hy : key y ∈ (keepFirst key l).map key
        · rw [if_pos hy, if_pos (hmem.mpr hy), hl]
        · rw [if_neg hy, if_neg (fun hc => hy (hmem.mp hc)), List.filter_append, hl,
            List.filter_singleton, hp, cond_true]
      · have hp' : p y = false := by simpa using hp
        rw [List.filter_singleton, hp', cond_false, List.append_nil]
        split
        · exact hl
        · rw [List.filter_append, List.filter_singleton, hp', cond_false, List.append_nil]
          exact hl

end KeepFirst
