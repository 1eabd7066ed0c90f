import Mathlib.Data.List.DropRight
import Mathlib.Data.List.Basic

/-!
# Words — a line that is typed, and its words

`trim` takes the blanks off both ends of a line, and `splitRuns` splits it at
every run of delimiters. `Spells ws s` says that `s` consists of the words `ws`
with a run of delimiters between any two: however long the runs are, the words
are read back (`splitRuns_of_spells`), and so they are with blanks around them
(`trim_pad`).
-/

namespace Words

variable {α : Type*}

/-- Without the blanks at both ends. -/
def trim (blank : α → Bool) (s : List α) : List α := (s.dropWhile blank).rdropWhile blank

/-- The fields between runs of delimiters; a run at an end has an empty field there. -/
def splitRuns (delim : α → Bool) : List α → List (List α)
  | [] => [[]]
  | c :: cs =>
      if delim c then
        if cs.head?.any delim then splitRuns delim cs else [] :: splitRuns delim cs
      else match splitRuns delim cs with
        | [] => [[c]]
        | w :: ws => (c :: w) :: ws

/-- The words, one after the other, with a run of delimiters between any two. -/
inductive Spells (delim : α → Bool) : List (List α) → List α → Prop
  | word (w : List α) : Spells delim [w] w
  | cons {w gap s : List α} {ws : List (List α)} : gap ≠ [] → (∀ c ∈ gap, delim c = true) →
      Spells delim ws s → Spells delim (w :: ws) (w ++ (gap ++ s))

variable {delim blank : α → Bool}

/-- A word in front of a text is in front of the first field. -/
theorem splitRuns_append {w : List α} (hw : ∀ c ∈ w, delim c = false) {s f : List α}
    {fs : List (List α)} (hs : splitRuns delim s = f :: fs) :
    splitRuns delim (w ++ s) = (w ++ f) :: fs := by
  induction w with
  | nil => exact hs
  | cons c w ih =>
      have hrest := ih fun c' hc' => hw c' (List.mem_cons_of_mem c hc')
      have hc : delim c = false := hw c List.mem_cons_self
      rw [List.cons_append, splitRuns, hrest, hc]
      rfl

/-- A run of delimiters before something else is one empty field. -/
theorem splitRuns_gap {gap s : List α} (hne : gap ≠ []) (hgap : ∀ c ∈ gap, delim c = true)
    (hs : s.head?.any delim = false) :
    splitRuns delim (gap ++ s) = [] :: splitRuns delim s := by
  induction gap with
  | nil => exact absurd rfl hne
  | cons c gap ih =>
      have hc : delim c = true := hgap c List.mem_cons_self
      rw [List.cons_append, splitRuns, if_pos hc]
      by_cases hnil : gap = []
      · subst hnil
        rw [List.nil_append, hs]
        rfl
      · have hrest := ih hnil fun c' hc' => hgap c' (List.mem_cons_of_mem c hc')
        obtain ⟨c', gap', rfl⟩ := List.exists_cons_of_ne_nil hnil
        have hc' : delim c' = true := hgap c' (by simp)
        rw [if_pos (by simp [hc']), hrest]

section Spelling

variable {ws : List (List α)} {s : List α}

theorem Spells.ne_nil (h : Spells delim ws s) : ws ≠ [] := by
  cases h <;> exact List.cons_ne_nil _ _

/-- The text begins as the first word does. -/
theorem Spells.head? (h : Spells delim ws s) (hne : ∀ w ∈ ws, w ≠ []) :
    s.head? = ws.head?.bind List.head? := by
  cases h with
  | word w => rfl
  | cons hgap hdelim hs =>
      rename_i w gap s ws
      obtain ⟨c, w', rfl⟩ := List.exists_cons_of_ne_nil (hne w List.mem_cons_self)
      rfl

/-- And it ends as the last one. -/
theorem Spells.getLast? (h : Spells delim ws s) (hne : ∀ w ∈ ws, w ≠ []) :
    s.getLast? = ws.getLast?.bind List.getLast? := by
  induction h with
  | word w => rfl
  | cons hgap hdelim hs ih =>
      rename_i w gap s ws
      have hlast := ih fun w' hw' => hne w' (List.mem_cons_of_mem w hw')
      have hs0 : s ≠ [] := by
        intro hnil
        rw [hnil, List.getLast?_nil, eq_comm, Option.bind_eq_none_iff] at hlast
        have hmem := List.getLast_mem hs.ne_nil
        have hnone := hlast _ (List.getLast?_eq_some_getLast hs.ne_nil)
        exact hne _ (List.mem_cons_of_mem w hmem) (List.getLast?_eq_none_iff.mp hnone)
      rw [List.getLast?_append_of_ne_nil _ (List.append_ne_nil_of_right_ne_nil _ hs0),
        List.getLast?_append_of_ne_nil _ hs0, hlast, List.getLast?_cons_of_ne_nil hs.ne_nil]

/-- **The words are read back.** -/
theorem splitRuns_of_spells (h : Spells delim ws s)
    (hws : ∀ w ∈ ws, w ≠ [] ∧ ∀ c ∈ w, delim c = false) : splitRuns delim s = ws := by
  induction h with
  | word w =>
      have hw := (hws w List.mem_cons_self).2
      have hsplit := splitRuns_append hw (show splitRuns delim [] = [] :: [] from rfl)
      rwa [List.append_nil] at hsplit
  | cons hgap hdelim hs ih =>
      rename_i w gap s ws
      have hrest := ih fun w' hw' => hws w' (List.mem_cons_of_mem w hw')
      have hhead : s.head?.any delim = false := by
        rw [hs.head? fun w' hw' => (hws w' (List.mem_cons_of_mem w hw')).1]
        obtain ⟨w', ws', rfl⟩ := List.exists_cons_of_ne_nil hs.ne_nil
        obtain ⟨hne, hword⟩ := hws w' (by simp)
        obtain ⟨c, w'', rfl⟩ := List.exists_cons_of_ne_nil hne
        exact hword c List.mem_cons_self
      rw [splitRuns_append (hws w List.mem_cons_self).2 (splitRuns_gap hgap hdelim hhead),
        List.append_nil, hrest]

end Spelling

/-- Blanks before something that is not blank. -/
theorem dropWhile_pad {left s : List α} (hleft : ∀ c ∈ left, blank c = true)
    (hhead : ∀ c ∈ s.head?, blank c = false) : (left ++ s).dropWhile blank = s := by
  rw [List.dropWhile_append_of_pos hleft]
  cases s with
  | nil => rfl
  | cons c s =>
      have hc : ¬blank c = true := by simp [hhead c rfl]
      exact List.dropWhile_cons_of_neg hc

/-- Blanks around a text that has none at its ends. -/
theorem trim_pad {left s right : List α} (hleft : ∀ c ∈ left, blank c = true)
    (hright : ∀ c ∈ right, blank c = true) (hne : s ≠ []) (hhead : ∀ c ∈ s.head?, blank c = false)
    (hlast : ∀ c ∈ s.getLast?, blank c = false) : trim blank (left ++ (s ++ right)) = s := by
  have hhead' : ∀ c ∈ (s ++ right).head?, blank c = false := by
    rw [List.head?_append_of_ne_nil _ hne]
    exact hhead
  have hback : (right.reverse ++ s.reverse).dropWhile blank = s.reverse := by
    apply dropWhile_pad
    · intro c hc
      exact hright c (List.mem_reverse.mp hc)
    · rwa [List.head?_reverse]
  rw [trim, dropWhile_pad hleft hhead', List.rdropWhile, List.reverse_append, hback,
    List.reverse_reverse]

/-- Trimming twice is trimming. -/
@[simp] theorem trim_trim (s : List α) : trim blank (trim blank s) = trim blank s := by
  have hhead : (trim blank s).dropWhile blank = trim blank s := by
    rw [List.dropWhile_eq_self_iff]
    intro hpos
    have hinit : trim blank s <+: s.dropWhile blank := List.rdropWhile_prefix blank _
    rw [hinit.getElem]
    exact List.dropWhile_get_zero_not blank s (Nat.lt_of_lt_of_le hpos hinit.length_le)
  rw [trim, hhead, trim, List.rdropWhile_idempotent]

end Words
