import SpinGlass.SaSolver
import SpinGlass.Lib.Decimal
import SpinGlass.Lib.Text

/-!
# ResultFile — what the solver writes, and what the analysis reads

`resultFile` is the text that the program writes, with the energies as the
default format of a stream gives them; `loadSaData` is `LoadSaData` of the
analysis script on that text. `loadSaData_resultFile_iff` says when the one
reads the energies that the other has written.
-/

namespace SpinGlass

open Text Decimal

/-! ## Writing -/

/-- `operator<<`: the energy with six significant digits, and the spins. -/
def outResult (res : Result ℚ) : Str :=
  formatG 6 res.E_ ++ ' ' :: res.spins_.flatMap (Nat.toDigits 10) ++ ['\n']

/-- The first line of the file; `std::to_string` of a `double` has six digits after the
point. -/
def header (infile : Str) (Ns : ℕ) (beta0 beta1 : ℚ) (numRep : ℕ) : Str :=
  "# infile=".toList ++ (infile ++ (" Ns=".toList ++ Nat.toDigits 10 Ns
    ++ " beta0=".toList ++ formatF 6 beta0 ++ " beta1=".toList ++ formatF 6 beta1
    ++ " num_rep=".toList ++ Nat.toDigits 10 numRep))

def resultFile (infile : Str) (Ns : ℕ) (beta0 beta1 : ℚ) (numRep : ℕ) (x : List (Result ℚ)) :
    Str :=
  header infile Ns beta0 beta1 numRep ++ '\n' :: x.flatMap outResult

/-! ## Reading -/

/-- What Python raises. -/
inductive PyError where
  | indexError
  | valueError
  deriving DecidableEq, Repr

/-- A file that is opened as text: every end of line is a newline. -/
def universalNewlines : Str → Str
  | '\r' :: '\n' :: cs => '\n' :: universalNewlines cs
  | '\r' :: cs => '\n' :: universalNewlines cs
  | c :: cs => c :: universalNewlines cs
  | [] => []

/-- `c.isspace()`. -/
def isspace (c : Char) : Bool :=
  (9 ≤ c.toNat ∧ c.toNat ≤ 13) ∨ (28 ≤ c.toNat ∧ c.toNat ≤ 32) ∨ c.toNat ∈ [0x85, 0xA0, 0x1680]
    ∨ (0x2000 ≤ c.toNat ∧ c.toNat ≤ 0x200A) ∨ c.toNat ∈ [0x2028, 0x2029, 0x202F, 0x205F, 0x3000]

/-- `line.split()`. -/
def split (line : Str) : List Str := (line.splitOnP isspace).filter (· ≠ [])

/-- The body of the loop, on a line without its end. -/
def loadLine (result : List ℤ) (line : Str) : Except PyError (List ℤ) :=
  -- `if line[0] == '#': continue`
  if line.head? = some '#' then .ok result
  else match split line with
    | [] => .error .indexError
    | temp :: _ =>
        match int? temp with
        | some n => .ok (result ++ [n])
        | none => .error .valueError

/-- `LoadSaData`. -/
def loadSaData (text : Str) : Except PyError (List ℤ) :=
  (getlines '\n' (universalNewlines text)).foldlM loadLine []

/-! ## The lines of the file -/

/-- A carriage return ends a line, too. -/
def crToNewline (c : Char) : Char := if c = '\r' then '\n' else c

theorem universalNewlines_cons {c : Char} (hc : c ≠ '\r') (cs : Str) :
    universalNewlines (c :: cs) = c :: universalNewlines cs := by
  rw [universalNewlines]
  · intro cs' h
    exact absurd h hc
  · intro h
    exact hc h

theorem universalNewlines_cr {cs : Str} (h : cs.head? ≠ some '\n') :
    universalNewlines ('\r' :: cs) = '\n' :: universalNewlines cs := by
  rw [universalNewlines]
  intro cs' hcs
  rw [hcs] at h
  exact h rfl

theorem universalNewlines_of_notMem {s : Str} (h : '\r' ∉ s) : universalNewlines s = s := by
  induction s with
  | nil => rfl
  | cons c s ih =>
      have hc : c ≠ '\r' := fun hc => h (by simp [hc])
      rw [universalNewlines_cons hc, ih fun hs => h (by simp [hs])]

/-- A line that ends in a newline, with carriage returns inside. -/
theorem universalNewlines_line {w : Str} (hw : '\n' ∉ w) (hlast : w.getLast? ≠ some '\r')
    (v : Str) :
    universalNewlines (w ++ '\n' :: v) = w.map crToNewline ++ '\n' :: universalNewlines v := by
  induction w with
  | nil => exact universalNewlines_cons (by decide) v
  | cons c w ih =>
      have hrest : '\n' ∉ w := fun h => hw (by simp [h])
      by_cases hnil : w = []
      · subst hnil
        have hc : c ≠ '\r' := by simpa using hlast
        rw [List.cons_append, universalNewlines_cons hc, List.nil_append,
          universalNewlines_cons (by decide)]
        simp [crToNewline, hc]
      · rw [List.getLast?_cons_of_ne_nil hnil] at hlast
        have ih := ih hrest hlast
        by_cases hc : c = '\r'
        · subst hc
          have hhead : (w ++ '\n' :: v).head? ≠ some '\n' := by
            intro h
            rw [List.head?_append_of_ne_nil _ hnil] at h
            exact hrest (List.mem_of_mem_head? h)
          rw [List.cons_append, universalNewlines_cr hhead, ih]
          rfl
        · rw [List.cons_append, universalNewlines_cons hc, ih]
          simp [crToNewline, hc]

theorem not_isNumeral_newline : ¬ IsNumeral '\n' := by
  unfold IsNumeral
  decide

theorem not_isNumeral_cr : ¬ IsNumeral '\r' := by
  unfold IsNumeral
  decide

/-- The line of a result. -/
def resultLine (res : Result ℚ) : Str :=
  formatG 6 res.E_ ++ ' ' :: res.spins_.flatMap (Nat.toDigits 10)

/-- Numbers and a space. -/
theorem mem_resultLine {res : Result ℚ} {c : Char} (h : c ∈ resultLine res) :
    IsNumeral c ∨ c = ' ' := by
  rcases List.mem_append.mp h with h | h
  · exact Or.inl (isNumeral_of_mem_formatG h)
  · rcases List.mem_cons.mp h with h | h
    · exact Or.inr h
    · obtain ⟨s, -, hs⟩ := List.mem_flatMap.mp h
      exact Or.inl (isNumeral_of_mem_toDigits hs)

theorem notMem_resultLine {c : Char} (hc : ¬ IsNumeral c) (hspace : c ≠ ' ') (res : Result ℚ) :
    c ∉ resultLine res := by
  intro h
  rcases mem_resultLine h with h | h
  · exact hc h
  · exact hspace h

theorem flatMap_outResult (x : List (Result ℚ)) :
    x.flatMap outResult = (x.map resultLine).flatMap fun line => line ++ ['\n'] := by
  rw [List.flatMap_map]
  rfl

theorem crToNewline_eq_hash {c : Char} : crToNewline c = '#' ↔ c = '#' := by
  by_cases hc : c = '\r'
  · subst hc
    decide
  · rw [crToNewline, if_neg hc]

theorem crToNewline_eq_newline {c : Char} (hc : c ≠ '\n') : crToNewline c = '\n' ↔ c = '\r' := by
  rw [crToNewline]
  split <;> simp_all

/-- What follows the newlines of a translated line follows its carriage returns. -/
theorem map_crToNewline_iff {w : Str} (hw : '\n' ∉ w) :
    (∀ u v, w.map crToNewline = u ++ '\n' :: v → v.head? = some '#') ↔
      ∀ u v, w = u ++ '\r' :: v → v.head? = some '#' := by
  have hhead : ∀ v : Str, (v.map crToNewline).head? = some '#' ↔ v.head? = some '#' := by
    intro v
    cases v with
    | nil => simp
    | cons c v => simp [crToNewline_eq_hash]
  constructor
  · intro hall u v huv
    refine (hhead v).mp (hall (u.map crToNewline) (v.map crToNewline) ?_)
    rw [huv, List.map_append, List.map_cons]
    rfl
  · intro hall u v huv
    obtain ⟨u', rest, rfl, -, hrest⟩ := List.map_eq_append_iff.mp huv
    obtain ⟨c, v', rfl, hc, rfl⟩ := List.map_eq_cons_iff.mp hrest
    have hcn : c ≠ '\n' := fun hcn => hw (by simp [hcn])
    rw [(crToNewline_eq_newline hcn).mp hc] at hall
    exact (hhead v').mpr (hall u' v' rfl)

/-- The characters of the header after the name of the file. -/
def headerRest (Ns : ℕ) (beta0 beta1 : ℚ) (numRep : ℕ) : Str :=
  " Ns=".toList ++ Nat.toDigits 10 Ns ++ " beta0=".toList ++ formatF 6 beta0
    ++ " beta1=".toList ++ formatF 6 beta1 ++ " num_rep=".toList ++ Nat.toDigits 10 numRep

theorem header_eq (infile : Str) (Ns : ℕ) (beta0 beta1 : ℚ) (numRep : ℕ) :
    header infile Ns beta0 beta1 numRep
      = "# infile=".toList ++ (infile ++ headerRest Ns beta0 beta1 numRep) := rfl

/-- No end of line comes from a number or from the words of the header. -/
theorem notMem_headerRest {c : Char} (hc : c = '\n' ∨ c = '\r') (Ns : ℕ) (beta0 beta1 : ℚ)
    (numRep : ℕ) : c ∉ headerRest Ns beta0 beta1 numRep := by
  have hnumeral : ¬ IsNumeral c := by
    rcases hc with rfl | rfl
    · exact not_isNumeral_newline
    · exact not_isNumeral_cr
  have hNs : c ∉ Nat.toDigits 10 Ns := fun h => hnumeral (isNumeral_of_mem_toDigits h)
  have hreps : c ∉ Nat.toDigits 10 numRep := fun h => hnumeral (isNumeral_of_mem_toDigits h)
  have h0 : c ∉ formatF 6 beta0 := fun h => hnumeral (isNumeral_of_mem_formatF h)
  have h1 : c ∉ formatF 6 beta1 := fun h => hnumeral (isNumeral_of_mem_formatF h)
  have hwords : ∀ w ∈ [" Ns=", " beta0=", " beta1=", " num_rep="], c ∉ String.toList w := by
    rcases hc with rfl | rfl <;> decide
  have hbefore := List.not_mem_append (List.not_mem_append (List.not_mem_append
    (hwords " Ns=" (by simp)) hNs) (hwords " beta0=" (by simp))) h0
  exact List.not_mem_append (List.not_mem_append (List.not_mem_append (List.not_mem_append
    hbefore (hwords " beta1=" (by simp))) h1) (hwords " num_rep=" (by simp))) hreps

/-- The header ends in a digit. -/
theorem getLast?_header (infile : Str) (Ns : ℕ) (beta0 beta1 : ℚ) (numRep : ℕ) :
    (header infile Ns beta0 beta1 numRep).getLast? ≠ some '\r' := by
  have hrest : headerRest Ns beta0 beta1 numRep ≠ [] :=
    List.append_ne_nil_of_right_ne_nil _ Nat.toDigits_ne_nil
  have hdigits : (header infile Ns beta0 beta1 numRep).getLast?
      = (Nat.toDigits 10 numRep).getLast? :=
    calc (header infile Ns beta0 beta1 numRep).getLast?
        = (infile ++ headerRest Ns beta0 beta1 numRep).getLast? :=
          List.getLast?_append_of_ne_nil _ (List.append_ne_nil_of_right_ne_nil _ hrest)
      _ = (headerRest Ns beta0 beta1 numRep).getLast? :=
          List.getLast?_append_of_ne_nil _ hrest
      _ = (Nat.toDigits 10 numRep).getLast? :=
          List.getLast?_append_of_ne_nil _ Nat.toDigits_ne_nil
  intro h
  rw [hdigits] at h
  exact not_isNumeral_cr (isNumeral_of_mem_toDigits (List.mem_of_getLast? h))

/-- In the name of the file, only a `#` follows a carriage return. -/
def CommentedReturns (infile : Str) : Prop :=
  ∀ u v, infile = u ++ '\r' :: v → v.head? = some '#'

theorem exists_eq_append_of_notMem {α : Type} {c : α} : ∀ {before s u v : List α}, c ∉ before →
    before ++ s = u ++ c :: v → ∃ u', s = u' ++ c :: v
  | [], _, u, _, _, h => ⟨u, h⟩
  | b :: before, s, [], v, hb, h => by
      rw [List.cons_append, List.nil_append, List.cons.injEq] at h
      exact absurd (by simp [h.1]) hb
  | b :: before, s, _ :: u, v, hb, h => by
      rw [List.cons_append, List.cons_append, List.cons.injEq] at h
      exact exists_eq_append_of_notMem (fun hc => hb (by simp [hc])) h.2

/-- The carriage returns of the header are those in the name of the file. -/
theorem header_returns_iff (infile : Str) (Ns : ℕ) (beta0 beta1 : ℚ) (numRep : ℕ) :
    (∀ u v, header infile Ns beta0 beta1 numRep = u ++ '\r' :: v → v.head? = some '#')
      ↔ CommentedReturns infile := by
  have hrest := notMem_headerRest (c := '\r') (Or.inr rfl) Ns beta0 beta1 numRep
  have hhead : (headerRest Ns beta0 beta1 numRep).head? = some ' ' := rfl
  rw [header_eq]
  generalize headerRest Ns beta0 beta1 numRep = rest at hrest hhead
  constructor
  · intro hall u v huv
    have hv := hall ("# infile=".toList ++ u) (v ++ rest) (by rw [huv]; simp)
    cases v with
    | nil =>
        rw [List.nil_append, hhead] at hv
        cases hv
    | cons c v => exact hv
  · intro hall u v huv
    obtain ⟨u', hu'⟩ := exists_eq_append_of_notMem (by decide) huv
    rcases List.append_eq_append_iff.mp hu' with ⟨w, -, hw⟩ | ⟨w, hinfile, hw⟩
    · exact absurd (by rw [hw]; simp) hrest
    · cases w with
      | nil =>
          rw [List.nil_append] at hw
          exact absurd (by rw [← hw]; simp) hrest
      | cons c w =>
          rw [List.cons_append, List.cons.injEq] at hw
          obtain ⟨rfl, rfl⟩ := hw
          have hv := hall u' w hinfile
          cases w with
          | nil => cases hv
          | cons c w => exact hv

/-- No end of line but those that `operator<<` writes. -/
theorem cr_notMem_flatMap_outResult (x : List (Result ℚ)) : '\r' ∉ x.flatMap outResult := by
  rw [flatMap_outResult]
  intro h
  obtain ⟨line, hline, h⟩ := List.mem_flatMap.mp h
  obtain ⟨res, -, rfl⟩ := List.mem_map.mp hline
  rcases List.mem_append.mp h with h | h
  · exact notMem_resultLine not_isNumeral_cr (by decide) res h
  · exact absurd (List.mem_singleton.mp h) (by decide)

/-- **The lines that Python sees**: those of the header, which has more than one when there
are carriage returns in it, and one for every result. -/
theorem getlines_resultFile {infile : Str} (hline : '\n' ∉ infile) (Ns : ℕ) (beta0 beta1 : ℚ)
    (numRep : ℕ) (x : List (Result ℚ)) :
    ∃ lines, getlines '\n' (universalNewlines (resultFile infile Ns beta0 beta1 numRep x))
        = lines ++ x.map resultLine ∧
      ((∀ line ∈ lines, line.head? = some '#') ↔ CommentedReturns infile) := by
  have hheader : '\n' ∉ header infile Ns beta0 beta1 numRep := by
    rw [header_eq]
    exact List.not_mem_append (by decide)
      (List.not_mem_append hline (notMem_headerRest (Or.inl rfl) _ _ _ _))
  have hlines : ∀ line ∈ x.map resultLine, '\n' ∉ line := by
    intro line hline
    obtain ⟨res, -, rfl⟩ := List.mem_map.mp hline
    exact notMem_resultLine not_isNumeral_newline (by decide) res
  refine ⟨getlines '\n' ((header infile Ns beta0 beta1 numRep).map crToNewline ++ ['\n']), ?_, ?_⟩
  · rw [resultFile, universalNewlines_line hheader (getLast?_header _ _ _ _ _),
      universalNewlines_of_notMem (cr_notMem_flatMap_outResult x), getlines_append_cons,
      flatMap_outResult, getlines_flatMap hlines]
  · have hhead : ((header infile Ns beta0 beta1 numRep).map crToNewline).head? = some '#' := rfl
    rw [forall_mem_getlines (by decide), map_crToNewline_iff hheader, header_returns_iff]
    exact ⟨fun h => h.2, fun h => ⟨hhead, h⟩⟩

/-! ## The loop of the script -/

/-- The line is read as `n`. -/
def ReadAs (line : Str) (n : ℤ) : Prop := (split line).head?.bind int? = some n

/-- The lines that are not comments. -/
def dataLines (lines : List Str) : List Str := lines.filter fun line => line.head? ≠ some '#'

theorem loadLine_ok_iff {result result' : List ℤ} {line : Str} (h : line.head? ≠ some '#') :
    loadLine result line = .ok result' ↔ ∃ n, ReadAs line n ∧ result' = result ++ [n] := by
  rw [loadLine, if_neg h]
  simp only [ReadAs]
  cases hsplit : split line with
  | nil => simp
  | cons temp rest =>
      cases hint : int? temp with
      | none => simp [hint]
      | some n => simp [hint, eq_comm]

/-- **What the loop returns**: the numbers of the lines that are not comments. -/
theorem loadLines_ok_iff {lines : List Str} {result result' : List ℤ} :
    lines.foldlM loadLine result = .ok result' ↔
      ∃ ns, result' = result ++ ns ∧ List.Forall₂ ReadAs (dataLines lines) ns := by
  induction lines generalizing result with
  | nil =>
      constructor
      · intro h
        cases h
        exact ⟨[], by simp, .nil⟩
      · rintro ⟨ns, rfl, hns⟩
        cases hns
        rw [List.append_nil]
        rfl
  | cons line lines ih =>
      rw [List.foldlM_cons]
      by_cases hcomment : line.head? = some '#'
      · rw [loadLine, if_pos hcomment, CountedLoop.ok_bind, ih]
        simp [dataLines, hcomment]
      · have hdata : dataLines (line :: lines) = line :: dataLines lines := by
          simp [dataLines, hcomment]
        rw [CountedLoop.bind_eq_ok, hdata]
        constructor
        · rintro ⟨mid, hmid, h⟩
          obtain ⟨n, hn, rfl⟩ := (loadLine_ok_iff hcomment).mp hmid
          obtain ⟨ns, rfl, hns⟩ := ih.mp h
          exact ⟨n :: ns, by simp, .cons hn hns⟩
        · rintro ⟨ns, rfl, hns⟩
          cases hns with
          | @cons _ n _ ns hn hns =>
              exact ⟨result ++ [n], (loadLine_ok_iff hcomment).mpr ⟨n, hn, rfl⟩,
                ih.mpr ⟨ns, by simp, hns⟩⟩

theorem isspace_of_isNumeral {c : Char} (h : IsNumeral c) : isspace c = false := by
  rcases h with h | h
  · simp only [Char.isDigit, Bool.and_eq_true, decide_eq_true_eq] at h
    have h48 : 48 ≤ c.toNat := h.1
    have h57 : c.toNat ≤ 57 := h.2
    simp [isspace]
    omega
  · simp only [List.mem_cons, List.not_mem_nil, or_false] at h
    rcases h with rfl | rfl | rfl | rfl <;> decide

/-- The first word of the line of a result is its energy. -/
theorem head?_split_resultLine {res : Result ℚ} {n : ℤ} (hE : res.E_ = n) :
    (split (resultLine res)).head? = some (formatG 6 res.E_) := by
  have hne : formatG 6 res.E_ ≠ [] := by
    rw [hE]
    exact formatG_ne_nil (by decide) n
  have hwords : (resultLine res).splitOnP isspace
      = formatG 6 res.E_ :: (res.spins_.flatMap (Nat.toDigits 10)).splitOnP isspace :=
    List.splitOnP_append_cons_of_forall_mem
      (fun c hc => isspace_of_isNumeral (isNumeral_of_mem_formatG hc)) ' ' (by decide) _
  rw [split, hwords, List.filter_cons_of_pos (by simpa using hne), List.head?_cons]

/-- **The round trip of one result**: it is read as it was when it has no more than six
digits. -/
theorem readAs_resultLine_iff {res : Result ℚ} {n : ℤ} (hE : res.E_ = n) :
    ReadAs (resultLine res) n ↔ n.natAbs < 10 ^ 6 := by
  rw [ReadAs, head?_split_resultLine hE, Option.bind_some, hE]
  constructor
  · intro h
    by_contra hle
    rw [int?_formatG_of_le (by omega)] at h
    cases h
  · intro h
    exact int?_formatG_of_lt (by decide) h

theorem head?_resultLine_ne (res : Result ℚ) : (resultLine res).head? ≠ some '#' := by
  intro h
  refine notMem_resultLine ?_ (by decide) res (List.mem_of_mem_head? h)
  unfold IsNumeral
  decide

theorem dataLines_resultLines (x : List (Result ℚ)) :
    dataLines (x.map resultLine) = x.map resultLine := by
  rw [dataLines, List.filter_eq_self]
  intro line hline
  obtain ⟨res, -, rfl⟩ := List.mem_map.mp hline
  simpa using head?_resultLine_ne res

theorem readAs_resultLines_iff {x : List (Result ℚ)} {es : List ℤ}
    (hes : List.Forall₂ (fun (res : Result ℚ) (n : ℤ) => res.E_ = (n : ℚ)) x es) :
    List.Forall₂ ReadAs (x.map resultLine) es ↔ ∀ n ∈ es, n.natAbs < 10 ^ 6 := by
  induction hes with
  | nil => simp
  | cons hE _ ih =>
      rw [List.map_cons, List.forall₂_cons, readAs_resultLine_iff hE, ih, List.forall_mem_cons]

/-- **When the analysis reads back what the solver has written**: for every list of results
with integer energies and whatever spins, and every name of a file without a newline, exactly
when no energy has more than six digits (and no carriage return in the name of the file
makes Python see a second line that is not a comment). -/
theorem loadSaData_resultFile_iff {infile : Str} (hline : '\n' ∉ infile) (Ns : ℕ)
    (beta0 beta1 : ℚ) (numRep : ℕ) {x : List (Result ℚ)} {es : List ℤ}
    (hes : x.map Result.E_ = es.map fun n : ℤ => (n : ℚ)) :
    loadSaData (resultFile infile Ns beta0 beta1 numRep x) = .ok es ↔
      (∀ n ∈ es, n.natAbs < 10 ^ 6) ∧ CommentedReturns infile := by
  have hpairs : List.Forall₂ (fun (res : Result ℚ) (n : ℤ) => res.E_ = (n : ℚ)) x es := by
    rw [← List.forall₂_eq_eq_eq, List.forall₂_map_left_iff, List.forall₂_map_right_iff] at hes
    exact hes
  obtain ⟨lines, hlines, hcomments⟩ := getlines_resultFile hline Ns beta0 beta1 numRep x
  have hdata : dataLines (lines ++ x.map resultLine) = dataLines lines ++ x.map resultLine := by
    rw [dataLines, List.filter_append, ← dataLines, ← dataLines, dataLines_resultLines]
  have hnone : dataLines lines = [] ↔ CommentedReturns infile := by
    rw [← hcomments, dataLines, List.filter_eq_nil_iff]
    simp
  rw [loadSaData, hlines, loadLines_ok_iff, hdata, ← readAs_resultLines_iff hpairs, ← hnone]
  constructor
  · rintro ⟨ns, rfl, hns⟩
    -- as many numbers are read as there are results, so that no other line was read
    have hlength := hns.length_eq
    rw [List.length_append, List.length_map, hpairs.length_eq] at hlength
    have hnil : dataLines lines = [] := List.length_eq_zero_iff.mp (by omega)
    rw [hnil, List.nil_append] at hns
    exact ⟨hns, hnil⟩
  · rintro ⟨hns, hnil⟩
    exact ⟨es, rfl, by rw [hnil, List.nil_append]; exact hns⟩

/-- Two results, one of them without spins. -/
theorem loadSaData_resultFile_iff_sample :
    loadSaData (resultFile "128random0.lat".toList 100 (1 / 10) 3 2
      [{ E_ := -214, spins_ := [0, 1, 1] }, { E_ := 0, spins_ := [] }]) = .ok [-214, 0] := by
  have hes : ([{ E_ := -214, spins_ := [0, 1, 1] }, { E_ := 0, spins_ := [] }] :
      List (Result ℚ)).map Result.E_ = ([-214, 0] : List ℤ).map fun n : ℤ => (n : ℚ) := by
    norm_num
  have hreturns : CommentedReturns "128random0.lat".toList := by
    intro u v h
    have hmem : '\r' ∈ u ++ '\r' :: v := by simp
    rw [← h] at hmem
    exact absurd hmem (by decide)
  exact (loadSaData_resultFile_iff (by decide) 100 (1 / 10) 3 2 hes).mpr
    ⟨by decide, hreturns⟩

/-- An energy of seven digits is written with an exponent, which Python does not take for an
integer. -/
theorem energy_of_seven_digits_is_not_read :
    resultLine { E_ := 1000000, spins_ := [0, 1] } = "1e+06 01".toList ∧
    loadSaData (resultFile "128random0.lat".toList 100 (1 / 10) 3 1
      [{ E_ := 1000000, spins_ := [0, 1] }]) = .error .valueError := by
  constructor <;> decide +kernel

end SpinGlass
