import Mathlib.Data.List.Basic
import Mathlib.Data.List.DropRight
import Mathlib.Tactic.Common

/-!
# Text — reading up to a delimiter, and keys of terminated numerals

`getline d` takes one field off a stream: the characters up to the next
`d`, which is dropped, or up to the end of the stream. It fails on the
empty stream only, so that a stream that ends in `d` has no empty last
field. `getlines d` reads fields until that failure; `getlines_eq` is
that loop.

`unlines d` closes each of some lines with `d`, and
`exists_append_of_unlines` says that such a text is cut in one way.

`numeralKey` writes a list of numbers as decimal numerals, each closed
by a blank; `numeralKey_inj` says that no two lists share a key.
-/

namespace Text

/-! ## Fields -/

section Fields

variable {α : Type*} [DecidableEq α]

/-- One field of the stream, and what is left of the stream. -/
def getline (d : α) : List α → Option (List α × List α)
  | [] => none
  | c :: cs => some ((c :: cs).takeWhile (· ≠ d), ((c :: cs).dropWhile (· ≠ d)).tail)

/-- All fields of the stream. -/
def getlines (d : α) : List α → List (List α)
  | [] => []
  | c :: cs =>
      if c = d then [] :: getlines d cs
      else match getlines d cs with
        | [] => [[c]]
        | l :: ls => (c :: l) :: ls

@[simp] theorem getlines_nil (d : α) : getlines d [] = [] := rfl

/-- **The reading loop**: fields are taken with `getline` until it fails. -/
theorem getlines_eq (d : α) (s : List α) :
    getlines d s = match getline d s with
      | none => []
      | some (field, rest) => field :: getlines d rest := by
  induction s with
  | nil => rfl
  | cons c cs ih =>
      by_cases hc : c = d
      · subst hc
        simp [getlines, getline]
      · rw [getlines, if_neg hc, ih]
        cases cs with
        | nil => simp [getline, hc]
        | cons c' cs =>
            have htake := List.takeWhile_cons_of_pos (p := (· ≠ d)) (l := c' :: cs)
              (show decide (c ≠ d) = true by simpa using hc)
            have hdrop := List.dropWhile_cons_of_pos (p := (· ≠ d)) (l := c' :: cs)
              (show decide (c ≠ d) = true by simpa using hc)
            simp only [getline]
            rw [htake, hdrop]

/-- A stream with something in it has a field. -/
theorem getlines_ne_nil {d : α} {s : List α} (h : s ≠ []) : getlines d s ≠ [] := by
  rw [getlines_eq]
  cases s with
  | nil => exact absurd rfl h
  | cons c cs => simp [getline]

/-- **Fields split at a delimiter.** -/
theorem getlines_append_cons (d : α) (u v : List α) :
    getlines d (u ++ d :: v) = getlines d (u ++ [d]) ++ getlines d v := by
  induction u with
  | nil => simp [getlines]
  | cons c u ih =>
      rw [List.cons_append, List.cons_append, getlines, getlines]
      by_cases hc : c = d
      · rw [if_pos hc, if_pos hc, ih, List.cons_append]
      · rw [if_neg hc, if_neg hc, ih]
        cases hu : getlines d (u ++ [d]) with
        | nil => exact absurd hu (getlines_ne_nil (by simp))
        | cons l ls => rfl

/-- A field that is closed by the delimiter. -/
theorem getlines_concat_of_notMem {d : α} {u : List α} (h : d ∉ u) :
    getlines d (u ++ [d]) = [u] := by
  induction u with
  | nil => simp [getlines]
  | cons c u ih =>
      have hc : c ≠ d := fun hcd => h (by simp [hcd])
      rw [List.cons_append, getlines, if_neg hc, ih fun hd => h (by simp [hd])]

/-- The last field is closed by a delimiter that is added to it. -/
theorem getlines_concat {d : α} {u : List α} (hne : u ≠ []) (h : u.getLast? ≠ some d) :
    getlines d (u ++ [d]) = getlines d u := by
  induction u with
  | nil => exact absurd rfl hne
  | cons c u ih =>
      rw [List.cons_append, getlines, getlines]
      by_cases hu : u = []
      · subst hu
        have hc : c ≠ d := by simpa using h
        simp [hc, getlines]
      · rw [ih hu (by rwa [List.getLast?_cons_of_ne_nil hu] at h)]

/-- A delimiter at the end closes the last field, or an empty one. -/
theorem getlines_concat_self (d : α) (u : List α) :
    getlines d (u ++ [d]) = getlines d u ∨ getlines d (u ++ [d]) = getlines d u ++ [[]] := by
  by_cases hu : u = []
  · subst hu
    exact Or.inr (by simp [getlines])
  · by_cases hlast : u.getLast? = some d
    · obtain ⟨u', rfl⟩ : ∃ u', u = u' ++ [d] := ⟨u.dropLast, (List.dropLast_append_getLast? d hlast).symm⟩
      refine Or.inr ?_
      rw [List.append_assoc, List.singleton_append, getlines_append_cons]
      simp [getlines]
    · exact Or.inl (getlines_concat hu hlast)

theorem notMem_of_mem_getlines {d : α} {s l : List α} (h : l ∈ getlines d s) : d ∉ l := by
  induction s generalizing l with
  | nil => cases h
  | cons c s ih =>
      rw [getlines] at h
      by_cases hc : c = d
      · rw [if_pos hc] at h
        rcases List.mem_cons.mp h with rfl | h
        · exact List.not_mem_nil
        · exact ih h
      · rw [if_neg hc] at h
        have hcons : ∀ l', d ∉ l' → d ∉ c :: l' := by
          intro l' hl' hd
          rcases List.mem_cons.mp hd with hd | hd
          · exact hc hd.symm
          · exact hl' hd
        cases hs : getlines d s with
        | nil =>
            rw [hs] at h
            rw [List.mem_singleton.mp h]
            exact hcons [] List.not_mem_nil
        | cons l' ls =>
            rw [hs] at h ih
            rcases List.mem_cons.mp h with rfl | h
            · exact hcons l' (ih (by simp))
            · exact ih (by simp [h])

/-- Fields without delimiters, each closed by one, are read back. -/
theorem getlines_flatMap {d : α} {ls : List (List α)} (h : ∀ l ∈ ls, d ∉ l) :
    getlines d (ls.flatMap fun l => l ++ [d]) = ls := by
  induction ls with
  | nil => rfl
  | cons l ls ih =>
      rw [List.flatMap_cons, List.append_assoc, List.singleton_append, getlines_append_cons,
        getlines_concat_of_notMem (h l (by simp)), ih fun l' hl' => h l' (by simp [hl'])]
      rfl

/-- The first field of a closed text starts with `h` when the text does. -/
theorem head?_getlines_concat {d h : α} (hd : h ≠ d) {w f : List α} {ls : List (List α)}
    (hw : getlines d (w ++ [d]) = f :: ls) : f.head? = some h ↔ w.head? = some h := by
  cases w with
  | nil =>
      rw [List.nil_append, getlines, if_pos rfl] at hw
      cases hw
      simp
  | cons c w =>
      rw [List.cons_append, getlines] at hw
      by_cases hc : c = d
      · rw [if_pos hc] at hw
        cases hw
        simp [hc, Ne.symm hd]
      · rw [if_neg hc] at hw
        cases hl : getlines d (w ++ [d]) with
        | nil => exact absurd hl (getlines_ne_nil (by simp))
        | cons l ls' =>
            rw [hl] at hw
            cases hw
            simp

omit [DecidableEq α] in
/-- What stands after the delimiters of a list with one more element in front. -/
theorem forall_append_cons_iff {d c : α} {w : List α} {P : List α → Prop} :
    (∀ u v, c :: w = u ++ d :: v → P v) ↔
      (c = d → P w) ∧ ∀ u v, w = u ++ d :: v → P v := by
  constructor
  · intro hall
    refine ⟨fun hc => hall [] w ?_, fun u v huv => hall (c :: u) v ?_⟩
    · rw [hc, List.nil_append]
    · rw [huv, List.cons_append]
  · rintro ⟨hhead, hrest⟩ u v huv
    cases u with
    | nil =>
        cases huv
        exact hhead rfl
    | cons c' u =>
        cases huv
        exact hrest u v rfl

/-- All later fields start with `h` when that stands after every delimiter. -/
theorem forall_mem_tail_getlines {d h : α} (hd : h ≠ d) (w : List α) :
    (∀ l ∈ (getlines d (w ++ [d])).tail, l.head? = some h) ↔
      ∀ u v, w = u ++ d :: v → v.head? = some h := by
  induction w with
  | nil => simp [getlines]
  | cons c w ih =>
      cases hl : getlines d (w ++ [d]) with
      | nil => exact absurd hl (getlines_ne_nil (by simp))
      | cons l ls =>
          rw [hl, List.tail_cons] at ih
          rw [List.cons_append, getlines, hl, forall_append_cons_iff, ← ih]
          by_cases hc : c = d
          · rw [if_pos hc, List.tail_cons, List.forall_mem_cons, head?_getlines_concat hd hl]
            simp [hc]
          · rw [if_neg hc]
            simp [hc]

/-- **All fields of a closed text start with `h`** when the text does, and what follows
each of its delimiters. -/
theorem forall_mem_getlines {d h : α} (hd : h ≠ d) (w : List α) :
    (∀ l ∈ getlines d (w ++ [d]), l.head? = some h) ↔
      w.head? = some h ∧ ∀ u v, w = u ++ d :: v → v.head? = some h := by
  cases hl : getlines d (w ++ [d]) with
  | nil => exact absurd hl (getlines_ne_nil (by simp))
  | cons l ls =>
      rw [List.forall_mem_cons, head?_getlines_concat hd hl, ← forall_mem_tail_getlines hd, hl,
        List.tail_cons]

end Fields

/-! ## Closed lines -/

section Lines

variable {α : Type*}

/-- The lines, each closed by the delimiter. -/
def unlines (d : α) (ls : List (List α)) : List α := ls.flatMap fun l => l ++ [d]

@[simp] theorem unlines_nil (d : α) : unlines d [] = [] := rfl

theorem unlines_cons (d : α) (l : List α) (ls : List (List α)) :
    unlines d (l :: ls) = l ++ d :: unlines d ls := by
  simp [unlines]

theorem unlines_concat (d : α) (ls : List (List α)) (l : List α) :
    unlines d (ls ++ [l]) = unlines d ls ++ (l ++ [d]) := by
  simp [unlines]

/-- There are as many delimiters as lines. -/
theorem count_unlines [BEq α] [LawfulBEq α] {d : α} {ls : List (List α)} (h : ∀ l ∈ ls, d ∉ l) :
    (unlines d ls).count d = ls.length := by
  induction ls with
  | nil => rfl
  | cons l ls ih =>
      rw [unlines_cons, List.count_append, List.count_cons_self, List.count_eq_zero.mpr (h l (by simp)),
        ih fun l' hl' => h l' (by simp [hl']), Nat.zero_add, List.length_cons]

/-- What comes after the last delimiter is found from behind. -/
theorem rtakeWhile_unlines_append [DecidableEq α] {d : α} (ls : List (List α)) {r : List α}
    (hr : d ∉ r) : (unlines d ls ++ r).rtakeWhile (· ≠ d) = r := by
  have hback : ∀ c ∈ r.reverse, decide (c ≠ d) = true := by
    intro c hc
    rw [decide_eq_true_eq]
    rintro rfl
    exact hr (List.mem_reverse.mp hc)
  have hstop : (unlines d ls).reverse.takeWhile (· ≠ d) = [] := by
    cases ls using List.reverseRecOn with
    | nil => rfl
    | append_singleton ls l => simp [unlines_concat]
  rw [List.rtakeWhile, List.reverse_append, List.takeWhile_append_of_pos hback, hstop,
    List.append_nil, List.reverse_reverse]

end Lines

/-! ## Keys -/

/-- The numerals of `vec`, each followed by a blank. -/
def numeralKey (vec : List ℕ) : List Char :=
  vec.flatMap fun a => Nat.toDigits 10 a ++ [' ']

theorem numeralKey_cons (a : ℕ) (vec : List ℕ) :
    numeralKey (a :: vec) = Nat.toDigits 10 a ++ ' ' :: numeralKey vec := by
  simp [numeralKey]

theorem toDigits_inj {a b : ℕ} (h : Nat.toDigits 10 a = Nat.toDigits 10 b) : a = b := by
  rw [← Nat.ofDigitChars_ten_toDigits (n := a), h, Nat.ofDigitChars_ten_toDigits]

theorem blank_not_mem_toDigits (a : ℕ) : ' ' ∉ Nat.toDigits 10 a := by
  intro h
  have := Nat.isDigit_of_mem_toDigits (by omega) (Nat.le_refl 10) h
  exact absurd this (by decide)

/-- What stands before the first `c` is determined by the whole. -/
theorem append_cons_inj_of_not_mem {α : Type*} {c : α} : ∀ {xs ys xs' ys' : List α},
    c ∉ xs → c ∉ ys → xs ++ c :: xs' = ys ++ c :: ys' → xs = ys ∧ xs' = ys'
  | [], [], _, _, _, _, h => by
      rw [List.nil_append, List.nil_append, List.cons.injEq] at h
      exact ⟨rfl, h.2⟩
  | [], y :: ys, _, _, _, hy, h => by
      rw [List.nil_append, List.cons_append, List.cons.injEq] at h
      exact absurd (by simp [h.1]) hy
  | x :: xs, [], _, _, hx, _, h => by
      rw [List.nil_append, List.cons_append, List.cons.injEq] at h
      exact absurd (by simp [h.1]) hx
  | x :: xs, y :: ys, _, _, hx, hy, h => by
      rw [List.cons_append, List.cons_append, List.cons.injEq] at h
      obtain ⟨hxy, h⟩ := h
      obtain ⟨hl, hr⟩ := append_cons_inj_of_not_mem (fun hc => hx (by simp [hc]))
        (fun hc => hy (by simp [hc])) h
      exact ⟨by rw [hxy, hl], hr⟩

/-- **Closed lines are cut in one way**: lines in front of a text that consists of closed
lines are the first ones of it. -/
theorem exists_append_of_unlines {α : Type*} {d : α} {u v : List (List α)}
    (hu : ∀ l ∈ u, d ∉ l) (hv : ∀ l ∈ v, d ∉ l) {r : List α}
    (h : unlines d u ++ r = unlines d v) : ∃ v', v = u ++ v' ∧ r = unlines d v' := by
  induction u generalizing v with
  | nil => exact ⟨v, rfl, h⟩
  | cons l u ih =>
      cases v with
      | nil => simp [unlines_cons] at h
      | cons l' v =>
          rw [unlines_cons, unlines_cons, List.append_assoc, List.cons_append] at h
          obtain ⟨rfl, hrest⟩ := append_cons_inj_of_not_mem (hu l (by simp)) (hv l' (by simp)) h
          obtain ⟨v', rfl, hr⟩ := ih (fun l' hl' => hu l' (by simp [hl']))
            (fun l' hl' => hv l' (by simp [hl'])) hrest
          exact ⟨v', rfl, hr⟩

/-- **Keys are collision free**, whatever the lengths of the two lists. -/
theorem numeralKey_inj : ∀ {u v : List ℕ}, numeralKey u = numeralKey v → u = v
  | [], [], _ => rfl
  | [], b :: v, h => by
      rw [numeralKey_cons] at h
      exact absurd h (by simp [numeralKey])
  | a :: u, [], h => by
      rw [numeralKey_cons] at h
      exact absurd h (by simp [numeralKey])
  | a :: u, b :: v, h => by
      rw [numeralKey_cons, numeralKey_cons] at h
      obtain ⟨hd, ht⟩ := append_cons_inj_of_not_mem (blank_not_mem_toDigits a)
        (blank_not_mem_toDigits b) h
      rw [toDigits_inj hd, numeralKey_inj ht]

end Text
