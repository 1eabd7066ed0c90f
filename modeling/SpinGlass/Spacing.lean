import SpinGlass.FileIncidence
import SpinGlass.Lib.Delimiters

/-!
# Spacing — what more spaces do to a file

The constructor splits a line at every single space, so that a space more
makes an empty field: it is read as a site whose name is empty, or as a
coupling that is no number. `spacing_iff` says for which files, and for
which spaces in them, the Hamiltonian stays the same all the same.
-/

namespace SpinGlass

open CountedLoop KeepFirst Text

variable {K : Type} [Field K] [LinearOrder K]

/-! ## Respaced files -/

/-- The fields that are not empty: what an edge line is meant to say. -/
def fields (line : Str) : List Str := (tokens line).filter (· ≠ [])

/-- The number in the last field. -/
def lastField (stod : Str → Option K) (line : Str) : Option K := (fields line).getLast?.bind stod

/-- An edge line: a space, no `#`, at least one site, and a number in the last field. -/
structure EdgeLine (stod : Str → Option K) (line : Str) : Prop where
  admitted : admitted line = true
  site : 2 ≤ (fields line).length
  numeric : (lastField stod line).isSome

/-- An edge line may have more spaces, at its ends or next to another; every other line
stays. -/
def LineRespaced (stod : Str → Option K) (line line' : Str) : Prop :=
  line' = line ∨ (EdgeLine stod line ∧ Respaced ' ' line line')

def TextRespaced (stod : Str → Option K) (text text' : Str) : Prop :=
  List.Forall₂ (LineRespaced stod) (getlines '\n' text) (getlines '\n' text')

/-- Spaces that do no harm: none; one that closes the last field; or any, on a line whose
coupling is zero, that leave no empty field at its end. -/
def Harmless (stod : Str → Option K) (line line' : Str) : Prop :=
  line' = line ∨ (line' = line ++ [' '] ∧ line.getLast? ≠ some ' ') ∨
    (lastField stod line = some 0 ∧ (tokens line').getLast? ≠ some [])

/-- A line on which the constructor does not fail for want of a number. -/
def NumericLine (stod : Str → Option K) (line : Str) : Prop :=
  admitted line = true → ((tokens line).getLast?.bind stod).isSome

/-! ## One line -/

section Line

variable {stod : Str → Option K} {line line' : Str}

omit [Field K] [LinearOrder K] in
theorem LineRespaced.padded (h : LineRespaced stod line line') :
    Padded (tokens line) (tokens line') := by
  rcases h with rfl | ⟨-, h⟩
  · exact Padded.refl _
  · exact h.padded

omit [Field K] [LinearOrder K] in
theorem LineRespaced.admitted (h : LineRespaced stod line line') :
    admitted line' = admitted line := by
  rcases h with rfl | ⟨hedge, h⟩
  · rfl
  · have hline := hedge.admitted
    rw [hline]
    simp only [SpinGlass.admitted, decide_eq_true_eq] at hline ⊢
    exact ⟨h.delim_mem hline.1, fun hc => hline.2 ((h.mem_iff (by decide)).mp hc)⟩

omit [Field K] [LinearOrder K] in
theorem LineRespaced.lastField (h : LineRespaced stod line line') :
    lastField stod line' = lastField stod line := by
  have hfields : fields line' = fields line := h.padded.fields
  rw [SpinGlass.lastField, SpinGlass.lastField, hfields]

theorem getLast?_fields {line : Str} (h : (tokens line).getLast? ≠ some []) :
    (fields line).getLast? = (tokens line).getLast? := by
  cases hlast : (tokens line).getLast? with
  | none =>
      rw [fields, List.getLast?_eq_none_iff.mp hlast]
      rfl
  | some t =>
      obtain ⟨ts, hts⟩ := List.getLast?_eq_some_iff.mp hlast
      have ht : t ≠ [] := fun ht => h (by rw [hlast, ht])
      rw [fields, hts, List.filter_append]
      simp [ht]

omit [Field K] [LinearOrder K] in
/-- Where the last token is not empty, the coupling is read from the last field. -/
theorem getLast?_bind_eq (h : (tokens line).getLast? ≠ some []) :
    (tokens line).getLast?.bind stod = lastField stod line := by
  rw [lastField, getLast?_fields h]

omit [Field K] [LinearOrder K] in
/-- A number is not read off an empty field. -/
theorem getLast?_ne_of_isSome (hempty : stod [] = none)
    (h : ((tokens line).getLast?.bind stod).isSome) : (tokens line).getLast? ≠ some [] := by
  intro hlast
  rw [hlast, Option.bind_some, hempty] at h
  cases h

omit [Field K] [LinearOrder K] in
/-- A respaced line of which the coupling is read has the coupling of the line. -/
theorem LineRespaced.getLast?_bind (hempty : stod [] = none) (h : LineRespaced stod line line')
    (hnum : ((tokens line').getLast?.bind stod).isSome) :
    (tokens line').getLast?.bind stod = (tokens line).getLast?.bind stod := by
  have hlast' := getLast?_ne_of_isSome hempty hnum
  have hlast : (tokens line).getLast? ≠ some [] := fun hl => hlast' (h.padded.last hl)
  rw [getLast?_bind_eq hlast', getLast?_bind_eq hlast, h.lastField]

omit [Field K] [LinearOrder K] in
theorem LineRespaced.numericLine (hempty : stod [] = none) (h : LineRespaced stod line line')
    (hnum : NumericLine stod line') : NumericLine stod line := by
  intro hadm
  have hsome := hnum (by rw [h.admitted, hadm])
  rw [← h.getLast?_bind hempty hsome]
  exact hsome

/-- Harmless spaces change neither the coupling line nor whether there is a number. -/
theorem LineRespaced.same (h : LineRespaced stod line line')
    (hharm : Harmless stod line line') :
    couplingLine stod line' = couplingLine stod line ∧
      (NumericLine stod line' ↔ NumericLine stod line) := by
  have hadm := h.admitted
  -- it is enough that the tokens are the same, or the coupling zero on both lines
  have hzero : ∀ l : Str, (tokens l).getLast?.bind stod = some 0 →
      couplingLine stod l = none ∧ NumericLine stod l := by
    intro l hl
    constructor
    · rw [couplingLine, hl]
      simp
    · intro _
      rw [hl]
      rfl
  rcases hharm with rfl | ⟨rfl, hlast⟩ | ⟨hval, hlast'⟩
  · exact ⟨rfl, Iff.rfl⟩
  · have hne : line ≠ [] := by
      rcases h with heq | ⟨hedge, -⟩
      · simp at heq
      · intro hnil
        have hline := hedge.admitted
        rw [hnil] at hline
        cases hline
    have htokens : tokens (line ++ [' ']) = tokens line := getlines_concat hne hlast
    rw [couplingLine, couplingLine, NumericLine, NumericLine, hadm, htokens]
    exact ⟨rfl, Iff.rfl⟩
  · have hlast : (tokens line).getLast? ≠ some [] := fun hl => hlast' (h.padded.last hl)
    obtain ⟨hnone, hnum⟩ := hzero line (by rw [getLast?_bind_eq hlast, hval])
    obtain ⟨hnone', hnum'⟩ := hzero line' (by rw [getLast?_bind_eq hlast', h.lastField, hval])
    exact ⟨by rw [hnone, hnone'], by simp [hnum, hnum']⟩

theorem couplingLine_eq_some {l : List Str × K} :
    couplingLine stod line = some l ↔
      admitted line = true ∧ (tokens line).getLast?.bind stod = some l.2 ∧ l.2 ≠ 0 ∧
        l.1 = (tokens line).dropLast := by
  rw [couplingLine]
  by_cases hadm : admitted line = true
  · rw [if_pos hadm]
    cases hval : (tokens line).getLast?.bind stod with
    | none => simp
    | some val =>
        by_cases hz : val ≠ 0
        · simp only [if_pos hz, Option.some.injEq]
          constructor
          · rintro rfl
            exact ⟨hadm, rfl, hz, rfl⟩
          · rintro ⟨-, hl, -, hsites⟩
            exact Prod.ext hsites.symm hl
        · simp only [if_neg hz]
          constructor
          · intro h
            cases h
          · rintro ⟨-, hl, hne, -⟩
            rw [Option.some.injEq] at hl
            rw [hl] at hz
            exact absurd hne hz
  · simp [hadm]

omit [Field K] [LinearOrder K] in
/-- A longer list of tokens with the same fields has an empty token before its last, when
the two end alike. -/
theorem nil_mem_of_padded {ts ts' : List Str} {t : Str} (h : Padded (ts ++ [t]) (ts' ++ [t]))
    (hlen : ts.length < ts'.length) : [] ∈ ts' := by
  by_contra hnil
  have hall : ts'.filter (· ≠ []) = ts' := by
    rw [List.filter_eq_self]
    intro x hx
    simpa using ne_of_mem_of_not_mem hx hnil
  have hfields := h.fields
  rw [List.filter_append, List.filter_append, hall, List.append_left_inj] at hfields
  have hle := List.length_filter_le (· ≠ []) ts
  rw [← hfields] at hle
  omega

/-- On a respaced line the constructor reads the same coupling and no fewer sites; where the
spaces are not harmless, it reads a site without a name. -/
theorem LineRespaced.couplingLine (hempty : stod [] = none) (h : LineRespaced stod line line')
    (hnum : NumericLine stod line') {l : List Str × K}
    (hl : couplingLine stod line = some l) :
    ∃ l', SpinGlass.couplingLine stod line' = some l' ∧ l.1.Sublist l'.1 ∧
      (¬ Harmless stod line line' → [] ∈ l'.1) := by
  obtain ⟨hadm, hval, hz, hsites⟩ := couplingLine_eq_some.mp hl
  have hadm' : SpinGlass.admitted line' = true := by rw [h.admitted, hadm]
  have hlast' := getLast?_ne_of_isSome hempty (hnum hadm')
  have hlast : (tokens line).getLast? ≠ some [] := fun hl => hlast' (h.padded.last hl)
  have hval' : (tokens line').getLast?.bind stod = some l.2 := by
    rw [h.getLast?_bind hempty (hnum hadm'), hval]
  refine ⟨((tokens line').dropLast, l.2), couplingLine_eq_some.mpr ⟨hadm', hval', hz, rfl⟩, ?_⟩
  -- both lists of tokens end in the last field
  have hends := getLast?_fields hlast
  have hends' := getLast?_fields hlast'
  have hfields : fields line' = fields line := h.padded.fields
  have hne := tokens_ne_nil hadm
  rw [hfields, hends, List.getLast?_eq_getLast_of_ne_nil hne] at hends'
  have hts := List.dropLast_append_getLast? _ (List.getLast?_eq_getLast_of_ne_nil hne)
  have hts' := List.dropLast_append_getLast? _ hends'.symm
  have hpad := h.padded
  rw [← hts, ← hts'] at hpad
  refine ⟨?_, fun hharm => nil_mem_of_padded hpad ?_⟩
  · rw [hsites]
    exact (List.append_sublist_append_right _).mp hpad.sublist
  · have hlt : (tokens line).length < (tokens line').length := by
      rcases h with heq | ⟨-, h⟩
      · exact absurd (Or.inl heq) hharm
      · rcases h.cases with heq | ⟨heq, hspace, -⟩ | hlt
        · exact absurd (Or.inl heq) hharm
        · exact absurd (Or.inr (Or.inl ⟨heq, hspace⟩)) hharm
        · exact hlt
    have hpos := List.length_pos_iff.mpr hne
    rw [List.length_dropLast, List.length_dropLast]
    omega

/-- Where the spaces are not harmless, the line has a coupling. -/
theorem LineRespaced.exists_couplingLine (hempty : stod [] = none)
    (h : LineRespaced stod line line') (hnum : NumericLine stod line')
    (hharm : ¬ Harmless stod line line') : ∃ l, SpinGlass.couplingLine stod line = some l := by
  rcases h with heq | ⟨hedge, hspaces⟩
  · exact absurd (Or.inl heq) hharm
  · have h : LineRespaced stod line line' := Or.inr ⟨hedge, hspaces⟩
    have hlast' := getLast?_ne_of_isSome hempty (hnum (by rw [h.admitted, hedge.admitted]))
    have hlast : (tokens line).getLast? ≠ some [] := fun hl => hlast' (h.padded.last hl)
    obtain ⟨val, hval⟩ := Option.isSome_iff_exists.mp hedge.numeric
    refine ⟨((tokens line).dropLast, val), couplingLine_eq_some.mpr
      ⟨hedge.admitted, by rw [getLast?_bind_eq hlast, hval], fun hz => ?_, rfl⟩⟩
    rw [show val = 0 from hz] at hval
    exact hharm (Or.inr (Or.inr ⟨hval, hlast'⟩))

end Line

/-! ## Lists of lines -/

theorem exists_of_mem_forall₂ {α β : Type} {r : α → β → Prop} {l : List α} {m : List β}
    (h : List.Forall₂ r l m) {a : α} (ha : a ∈ l) : ∃ b ∈ m, r a b := by
  induction h with
  | nil => cases ha
  | @cons a' b l m hr _ ih =>
      rcases List.mem_cons.mp ha with rfl | ha
      · exact ⟨b, by simp, hr⟩
      · obtain ⟨b', hb', hr'⟩ := ih ha
        exact ⟨b', by simp [hb'], hr'⟩

theorem forall₂_of_mem {α β : Type} {r q : α → β → Prop} {l : List α} {m : List β}
    (h : List.Forall₂ r l m) (hq : ∀ a ∈ l, ∀ b ∈ m, r a b → q a b) : List.Forall₂ q l m := by
  induction h with
  | nil => exact List.Forall₂.nil
  | cons hr _ ih =>
      exact List.Forall₂.cons (hq _ (by simp) _ (by simp) hr)
        (ih fun a ha b hb => hq a (by simp [ha]) b (by simp [hb]))

theorem same_of_harmless {stod : Str → Option K} {lines lines' : List Str}
    (h : List.Forall₂ (LineRespaced stod) lines lines')
    (hharm : List.Forall₂ (Harmless stod) lines lines') :
    lines'.filterMap (couplingLine stod) = lines.filterMap (couplingLine stod) ∧
      ((∀ line ∈ lines', NumericLine stod line) ↔ ∀ line ∈ lines, NumericLine stod line) := by
  induction h with
  | nil => exact ⟨rfl, Iff.rfl⟩
  | cons hline _ ih =>
      cases hharm with
      | cons hh hrest =>
          obtain ⟨hcoupling, hnum⟩ := hline.same hh
          obtain ⟨hmap, hall⟩ := ih hrest
          constructor
          · rw [List.filterMap_cons, List.filterMap_cons, hcoupling, hmap]
          · simp only [List.forall_mem_cons, hnum, hall]

/-! ## Files -/

section File

variable {stod : Str → Option K} {text text' : Str}

/-- **Harmless spaces**: the constructor returns the same. -/
theorem TextRespaced.builds_iff (h : TextRespaced stod text text')
    (hharm : List.Forall₂ (Harmless stod) (getlines '\n' text) (getlines '\n' text'))
    (H : HamiltonianType K) : Builds stod text' H ↔ Builds stod text H := by
  obtain ⟨hmap, hnum⟩ := same_of_harmless h hharm
  have hcoupling : couplingLines stod text' = couplingLines stod text := hmap
  have hnum : AllNumeric stod text' ↔ AllNumeric stod text := hnum
  rw [SpinGlass.builds_iff, SpinGlass.builds_iff, hcoupling, hnum]

/-- A coupling line of the file is one of the respaced file, with no fewer sites. -/
theorem TextRespaced.exists_couplingLine (hempty : stod [] = none)
    (h : TextRespaced stod text text') (hnum : AllNumeric stod text') {l : List Str × K}
    (hl : l ∈ couplingLines stod text) :
    ∃ l' ∈ couplingLines stod text', l.1.Sublist l'.1 := by
  obtain ⟨line, hline, hl⟩ := List.mem_filterMap.mp hl
  obtain ⟨line', hline', hspaces⟩ := exists_of_mem_forall₂ h hline
  obtain ⟨l', hl', hsub, -⟩ := hspaces.couplingLine hempty (hnum line' hline') hl
  exact ⟨l', List.mem_filterMap.mpr ⟨line', hline', hl'⟩, hsub⟩

/-- More spaces do not make the constructor return on a file on which it did not. -/
theorem TextRespaced.exists_builds (hempty : stod [] = none) (h : TextRespaced stod text text')
    {H' : HamiltonianType K} (hbuilds : Builds stod text' H') : ∃ H, Builds stod text H := by
  obtain ⟨hnum, hshort, -⟩ := SpinGlass.builds_iff.mp hbuilds
  refine SpinGlass.exists_builds (fun line hline => ?_) fun l hl => ?_
  · obtain ⟨line', hline', hspaces⟩ := exists_of_mem_forall₂ h hline
    exact hspaces.numericLine hempty (hnum line' hline')
  · obtain ⟨l', hl', hsub⟩ := h.exists_couplingLine hempty hnum hl
    exact Nat.lt_of_le_of_lt hsub.length_le (hshort l' hl')

/-- Where the spaces are not harmless, a site without a name is among those of the respaced
file, which has them all: there is one more, or the constructor fails. -/
theorem TextRespaced.harmless (hempty : stod [] = none) (h : TextRespaced stod text text')
    {H : HamiltonianType K} (hbuilds : Builds stod text H) (hbuilds' : Builds stod text' H)
    (hnames : [] ∉ siteNames (couplingLines stod text)) :
    List.Forall₂ (Harmless stod) (getlines '\n' text) (getlines '\n' text') := by
  obtain ⟨-, -, hbuilt⟩ := SpinGlass.builds_iff.mp hbuilds
  obtain ⟨hnum, -, hbuilt'⟩ := SpinGlass.builds_iff.mp hbuilds'
  apply forall₂_of_mem h
  intro line hline line' hline' hspaces
  by_contra hharm
  obtain ⟨l, hl⟩ := hspaces.exists_couplingLine hempty (hnum line' hline') hharm
  obtain ⟨l', hl', -, hnil⟩ := hspaces.couplingLine hempty (hnum line' hline') hl
  have hmem : [] ∈ siteNames (couplingLines stod text') :=
    mem_siteNames.mpr ⟨l', List.mem_filterMap.mpr ⟨line', hline', hl'⟩, hnil hharm⟩
  have hsubset : [] :: siteNames (couplingLines stod text)
      ⊆ siteNames (couplingLines stod text') := by
    intro x hx
    rcases List.mem_cons.mp hx with rfl | hx
    · exact hmem
    · obtain ⟨l, hl, hxl⟩ := mem_siteNames.mp hx
      obtain ⟨l', hl', hsub⟩ := h.exists_couplingLine hempty hnum hl
      exact mem_siteNames.mpr ⟨l', hl', hsub.subset hxl⟩
  have hnodup := List.nodup_cons.mpr ⟨hnames, nodup_siteNames (couplingLines stod text)⟩
  have hle := (List.subperm_of_subset hnodup hsubset).length_le
  rw [List.length_cons, ← hbuilt.size, ← hbuilt'.size] at hle
  omega

omit [Field K] [LinearOrder K] in
/-- A line can be respaced in the file that it is a line of. -/
theorem exists_textRespaced {line line' : Str} (hline : line ∈ getlines '\n' text)
    (hedge : EdgeLine stod line) (hspaces : Respaced ' ' line line') :
    ∃ text', TextRespaced stod text text' ∧ line' ∈ getlines '\n' text' := by
  obtain ⟨before, rest, hsplit⟩ := List.append_of_mem hline
  have hold : ∀ l ∈ before ++ line :: rest, '\n' ∉ l := by
    intro l hl
    rw [← hsplit] at hl
    exact notMem_of_mem_getlines hl
  have hnew : ∀ l ∈ before ++ line' :: rest, '\n' ∉ l := by
    intro l hl hnewline
    rcases List.mem_append.mp hl with hl | hl
    · exact hold l (by simp [hl]) hnewline
    · rcases List.mem_cons.mp hl with rfl | hl
      · exact hold line (by simp) ((hspaces.mem_iff (by decide)).mp hnewline)
      · exact hold l (by simp [hl]) hnewline
  have hsame : ∀ lines : List Str, List.Forall₂ (LineRespaced stod) lines lines :=
    fun lines => List.forall₂_same.mpr fun _ _ => Or.inl rfl
  refine ⟨(before ++ line' :: rest).flatMap fun l => l ++ ['\n'], ?_, ?_⟩
  · rw [TextRespaced, getlines_flatMap hnew, hsplit]
    exact List.rel_append (hsame before) (.cons (Or.inr ⟨hedge, hspaces⟩) (hsame rest))
  · rw [getlines_flatMap hnew]
    simp

/-- Two more spaces at the end of an edge line make a file that is not read. -/
theorem exists_respaced_not_builds (hempty : stod [] = none) {line : Str}
    (hline : line ∈ getlines '\n' text) (hedge : EdgeLine stod line) :
    ∃ text', TextRespaced stod text text' ∧ ∀ H, ¬ Builds stod text' H := by
  have hspaces : Respaced ' ' line (line ++ [' '] ++ [' ']) :=
    (Relation.ReflTransGen.single (.finish line)).tail (.finish (line ++ [' ']))
  have hrespaced : LineRespaced stod line (line ++ [' '] ++ [' ']) := Or.inr ⟨hedge, hspaces⟩
  obtain ⟨text', htext', hline'⟩ := exists_textRespaced hline hedge hspaces
  refine ⟨text', htext', fun H hbuilds => ?_⟩
  obtain ⟨hnum, -⟩ := SpinGlass.builds_iff.mp hbuilds
  have hsome := hnum _ hline' (by rw [hrespaced.admitted, hedge.admitted])
  -- the last field is the empty one between the two spaces
  have htokens : tokens (line ++ [' '] ++ [' ']) = tokens (line ++ [' ']) ++ [[]] := by
    rw [List.append_assoc]
    exact getlines_append_cons ' ' line [' ']
  apply getLast?_ne_of_isSome hempty hsome
  rw [htokens, List.getLast?_concat]

/-- The lines on which the constructor does not return: an admitted line that ends in no
number, and a coupling line with more sites than the counter of their loop holds. -/
theorem forall_not_builds_iff :
    (∀ H, ¬ Builds stod text H) ↔
      ¬ AllNumeric stod text ∨ ∃ l ∈ couplingLines stod text, 2 ^ 32 ≤ l.1.length := by
  constructor
  · intro hnone
    by_contra hneither
    rw [not_or, not_not] at hneither
    obtain ⟨hnum, hshort⟩ := hneither
    push Not at hshort
    obtain ⟨H, hbuilds⟩ := SpinGlass.exists_builds hnum hshort
    exact hnone H hbuilds
  · rintro (hnum | ⟨l, hl, hlong⟩) H hbuilds
    · exact hnum (SpinGlass.builds_iff.mp hbuilds).1
    · exact absurd ((SpinGlass.builds_iff.mp hbuilds).2.1 l hl) (Nat.not_lt.mpr hlong)

/-- **When spaces do not change the problem.** A file keeps its Hamiltonian, or that it has
none, whatever spaces are added to its edge lines, exactly when it has no edge line, an
admitted line that ends in no number, or a coupling line of `2 ^ 32` sites. Spaces that are
harmless on every line change no file; and a file of numeric lines, none of them too long
and without a site that has no name, keeps its Hamiltonian under no others. -/
theorem spacing_iff (hempty : stod [] = none) (text : Str) :
    ((∀ text', TextRespaced stod text text' → ∀ H, Builds stod text' H ↔ Builds stod text H) ↔
      (∀ line ∈ getlines '\n' text, ¬ EdgeLine stod line) ∨ ¬ AllNumeric stod text ∨
        ∃ l ∈ couplingLines stod text, 2 ^ 32 ≤ l.1.length) ∧
    (∀ text', TextRespaced stod text text' →
      List.Forall₂ (Harmless stod) (getlines '\n' text) (getlines '\n' text') →
      ∀ H, Builds stod text' H ↔ Builds stod text H) ∧
    (∀ text', TextRespaced stod text text' → AllNumeric stod text →
      (∀ l ∈ couplingLines stod text, l.1.length < 2 ^ 32) →
      [] ∉ siteNames (couplingLines stod text) →
      ((∀ H, Builds stod text' H ↔ Builds stod text H) ↔
        List.Forall₂ (Harmless stod) (getlines '\n' text) (getlines '\n' text'))) := by
  refine ⟨?_, fun text' h hharm => h.builds_iff hharm, fun text' h hnum hshort hnames => ?_⟩
  · rw [← forall_not_builds_iff]
    constructor
    · intro hsame
      by_contra hneither
      rw [not_or] at hneither
      obtain ⟨hedge, hsome⟩ := hneither
      push Not at hedge hsome
      obtain ⟨line, hline, hedge⟩ := hedge
      obtain ⟨H, hbuilds⟩ := hsome
      obtain ⟨text', h, hnone⟩ := exists_respaced_not_builds hempty hline hedge
      exact hnone H ((hsame text' h H).mpr hbuilds)
    · rintro (hnone | hnone) text' h H
      · refine h.builds_iff (forall₂_of_mem h fun line hline line' _ hspaces => ?_) H
        rcases hspaces with heq | ⟨hedge, -⟩
        · exact Or.inl heq
        · exact absurd hedge (hnone line hline)
      · constructor
        · intro hbuilds
          obtain ⟨H', hH'⟩ := h.exists_builds hempty hbuilds
          exact absurd hH' (hnone H')
        · exact fun hbuilds => absurd hbuilds (hnone H)
  · obtain ⟨H, hbuilds⟩ := SpinGlass.exists_builds hnum hshort
    constructor
    · exact fun hsame => h.harmless hempty hbuilds ((hsame H).mpr hbuilds) hnames
    · exact fun hharm => h.builds_iff hharm

end File

theorem edgeLine_sample : EdgeLine stodInteger "1 2 3".toList := by
  constructor <;> decide

/-- A space at the end of a line, and one between two of its fields. -/
theorem spacing_iff_sample :
    (∀ H, Builds stodInteger "1 2 3 \n".toList H ↔ Builds stodInteger "1 2 3\n".toList H) ∧
    ¬ ∀ text', TextRespaced stodInteger "1 2 3\n".toList text' →
      ∀ H, Builds stodInteger text' H ↔ Builds stodInteger "1 2 3\n".toList H := by
  have hnum : AllNumeric stodInteger "1 2 3\n".toList := by
    unfold AllNumeric
    decide
  have hempty : stodInteger [] = none := rfl
  obtain ⟨hall, -, hone⟩ := spacing_iff hempty "1 2 3\n".toList
  constructor
  · have h : TextRespaced stodInteger "1 2 3\n".toList "1 2 3 \n".toList :=
      .cons (Or.inr ⟨edgeLine_sample, .single (.finish _)⟩) .nil
    refine (hone _ h hnum (by decide) (by decide)).mpr ?_
    exact .cons (Or.inr (Or.inl ⟨rfl, by decide⟩)) .nil
  · rw [hall]
    rintro (hnone | hnot | ⟨l, hl, hlong⟩)
    · exact hnone "1 2 3".toList (by decide) edgeLine_sample
    · exact hnot hnum
    · have hshort : ∀ l ∈ couplingLines stodInteger "1 2 3\n".toList, l.1.length < 2 ^ 32 := by
        decide
      exact absurd (hshort l hl) (Nat.not_lt.mpr hlong)

/-- A second space between two sites adds a site without a name; two at the end of the line
make the constructor fail. -/
theorem second_space_adds_a_site :
    TextRespaced stodInteger "1 2 3\n".toList "1  2 3\n".toList ∧
    hamiltonianType 4 stodInteger "1 2 3\n".toList
      = .ok { nodes_ := [[([0, 1], 3)], [([0, 1], 3)]] } ∧
    hamiltonianType 4 stodInteger "1  2 3\n".toList
      = .ok { nodes_ := [[([0, 1, 2], 3)], [([0, 1, 2], 3)], [([0, 1, 2], 3)]] } ∧
    hamiltonianType 4 stodInteger "1 2 3  \n".toList = .error .invalidArgument := by
  refine ⟨?_, by decide, by decide, by decide⟩
  exact .cons (Or.inr ⟨edgeLine_sample, .single (.inside "1".toList "2 3".toList)⟩) .nil

end SpinGlass
