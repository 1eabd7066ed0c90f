import SpinGlass.FileEnergy

/-!
# Reports — which lines the constructor reports

A line with a non-zero coupling either becomes an edge or is reported as a
duplicate. `placedLines` lists these lines with the places where they stand in the
file; `repeatsEarlier` is the test that should decide between the two, on the
names of the sites. `constructor_reports` proves that the marks decide in the
same way, and that the number in a report is that of the line.
-/

namespace SpinGlass

open Text KeepFirst CountedLoop

variable {K : Type}

/-- A line with a non-zero coupling: its number in the file, counted from one, the line
itself, and the names and the coupling on it. -/
structure PlacedLine (K : Type) where
  line : ℕ
  inputStr : Str
  coupling : List Str × K

/-- An earlier one of the lines names the same sites, each as often. -/
def repeatsEarlier (ps : List (PlacedLine K)) (p : PlacedLine K) : Bool :=
  ps.any fun q => decide (q.line < p.line) && q.coupling.1.isPerm p.coupling.1

/-- The message about a repeated line. -/
def PlacedLine.warning (p : PlacedLine K) : Str := duplicateWarning p.inputStr p.line

/-- The lines that come after it do not matter to a line. -/
theorem repeatsEarlier_append {ps more : List (PlacedLine K)} {p : PlacedLine K}
    (hmore : ∀ q ∈ more, p.line ≤ q.line) :
    repeatsEarlier (ps ++ more) p = repeatsEarlier ps p := by
  have hlate : (more.any fun q =>
      decide (q.line < p.line) && q.coupling.1.isPerm p.coupling.1) = false := by
    rw [List.any_eq_false]
    intro q hq
    simp [Nat.not_lt.mpr (hmore q hq)]
  rw [repeatsEarlier, List.any_append, hlate, Bool.or_false, repeatsEarlier]

/-- A line that comes after all of `ps`. -/
theorem repeatsEarlier_last {ps : List (PlacedLine K)} {p : PlacedLine K}
    (hps : ∀ q ∈ ps, q.line < p.line) :
    repeatsEarlier ps p = true ↔ ∃ l ∈ ps.map PlacedLine.coupling, l.1.Perm p.coupling.1 := by
  rw [repeatsEarlier, List.any_eq_true]
  constructor
  · rintro ⟨q, hq, h⟩
    rw [Bool.and_eq_true] at h
    exact ⟨q.coupling, List.mem_map_of_mem hq, List.isPerm_iff.mp h.2⟩
  · rintro ⟨l, hl, h⟩
    obtain ⟨q, hq, rfl⟩ := List.mem_map.mp hl
    exact ⟨q, hq, by simp [hps q hq, List.isPerm_iff.mpr h]⟩

section Placed

variable [Field K] [LinearOrder K]

def placedLine (stod : Str → Option K) (line : ℕ) (inputStr : Str) : Option (PlacedLine K) :=
  (couplingLine stod inputStr).map fun l => ⟨line, inputStr, l⟩

/-- The lines with a non-zero coupling, where they stand among `lines`. -/
def placedLines (stod : Str → Option K) (lines : List Str) : List (PlacedLine K) :=
  (lines.zipIdx 1).filterMap fun p => placedLine stod p.2 p.1

variable {stod : Str → Option K} {lines : List Str}

theorem placedLines_concat (lines : List Str) (line : Str) :
    placedLines stod (lines ++ [line])
      = placedLines stod lines ++ (placedLine stod (lines.length + 1) line).toList := by
  rw [placedLines, List.zipIdx_append, List.filterMap_append, List.zipIdx_singleton,
    Nat.add_comm 1, placedLines]
  cases h : placedLine stod (lines.length + 1) line <;> simp [h]

theorem map_coupling_placedLines (stod : Str → Option K) (lines : List Str) :
    (placedLines stod lines).map PlacedLine.coupling = lines.filterMap (couplingLine stod) := by
  induction lines using List.reverseRecOn with
  | nil => rfl
  | append_singleton lines line ih =>
      rw [placedLines_concat, List.map_append, ih, List.filterMap_append, placedLine]
      cases h : couplingLine stod line <;> simp [h]

theorem line_le {p : PlacedLine K} (hp : p ∈ placedLines stod lines) :
    p.line ≤ lines.length := by
  obtain ⟨⟨line, n⟩, hmem, hp⟩ := List.mem_filterMap.mp hp
  obtain ⟨l, -, rfl⟩ := Option.map_eq_some_iff.mp hp
  have h := List.mem_zipIdx hmem
  show n ≤ lines.length
  omega

/-- One more line: the others are judged as before, and it is judged by them. -/
theorem filter_repeatsEarlier_concat (keep : Bool) (lines : List Str) (line : Str) :
    (placedLines stod (lines ++ [line])).filter
        (fun q => repeatsEarlier (placedLines stod (lines ++ [line])) q == keep)
      = (placedLines stod lines).filter (fun q => repeatsEarlier (placedLines stod lines) q == keep)
        ++ (placedLine stod (lines.length + 1) line).toList.filter
          (fun q => repeatsEarlier (placedLines stod lines) q == keep) := by
  have hplace : ∀ r ∈ (placedLine stod (lines.length + 1) line).toList,
      r.line = lines.length + 1 := by
    intro r hr
    obtain ⟨l, -, rfl⟩ := Option.map_eq_some_iff.mp (Option.mem_toList.mp hr)
    rfl
  have hsame : ∀ q ∈ placedLines stod (lines ++ [line]),
      repeatsEarlier (placedLines stod (lines ++ [line])) q
        = repeatsEarlier (placedLines stod lines) q := by
    intro q hq
    have hle := line_le hq
    rw [List.length_append, List.length_singleton] at hle
    rw [placedLines_concat]
    apply repeatsEarlier_append
    intro r hr
    rw [hplace r hr]
    exact hle
  rw [List.filter_congr fun q hq => by rw [hsame q hq], placedLines_concat, List.filter_append]

/-- A new line is judged by the names on the lines before it. -/
theorem repeatsEarlier_new (lines : List Str) (line : Str) (l : List Str × K) :
    repeatsEarlier (placedLines stod lines) ⟨lines.length + 1, line, l⟩ = true
      ↔ ∃ l' ∈ lines.filterMap (couplingLine stod), l'.1.Perm l.1 := by
  rw [← map_coupling_placedLines]
  apply repeatsEarlier_last
  intro q hq
  exact Nat.lt_succ_of_le (line_le hq)

/-- The lines that repeat no other one are those whose names come first. -/
theorem map_coupling_filter (stod : Str → Option K) (lines : List Str) :
    ((placedLines stod lines).filter
        fun p => repeatsEarlier (placedLines stod lines) p == false).map PlacedLine.coupling
      = keepFirst (fun l : List Str × K => (l.1 : Multiset Str))
        (lines.filterMap (couplingLine stod)) := by
  induction lines using List.reverseRecOn with
  | nil => rfl
  | append_singleton lines line ih =>
      rw [filter_repeatsEarlier_concat, List.map_append, ih, List.filterMap_append, placedLine]
      cases hl : couplingLine stod line with
      | none => simp [hl]
      | some l =>
          have hmem : (l.1 : Multiset Str) ∈ (keepFirst (fun l : List Str × K =>
              (l.1 : Multiset Str)) (lines.filterMap (couplingLine stod))).map
                (fun l : List Str × K => (l.1 : Multiset Str))
              ↔ repeatsEarlier (placedLines stod lines) ⟨lines.length + 1, line, l⟩ = true := by
            rw [mem_map_keepFirst, repeatsEarlier_new, List.mem_map]
            simp only [Multiset.coe_eq_coe]
          have hline : [line].filterMap (couplingLine stod) = [l] := by simp [hl]
          rw [hline, keepFirst_concat]
          by_cases hrep : repeatsEarlier (placedLines stod lines) ⟨lines.length + 1, line, l⟩ = true
          · rw [if_pos (hmem.mpr hrep)]
            simp [hrep]
          · rw [if_neg fun h => hrep (hmem.mp h)]
            simp [hrep]

end Placed

/-! ## What is reported -/

theorem indexSite_writes_nothing (site : Str) (st : ReadState K) :
    (indexSite site st).2.cout = st.cout ∧ (indexSite site st).2.count = st.count := by
  unfold indexSite
  cases st.index.lookup site <;> exact ⟨rfl, rfl⟩

/-- The loop over the sites of a line writes nothing. -/
theorem readSites_writes_nothing (fuel : ℕ) (input : List Str) (st : ReadState K) :
    Meets (readSites fuel input st) (fun _ => True)
      (fun r => r.2.cout = st.cout ∧ r.2.count = st.count) := by
  rw [readSites]
  refine meets_forUnsigned (fun _ (r : List ℕ × ReadState K) =>
    r.2.cout = st.cout ∧ r.2.count = st.count) trivial (fun _ _ h => h) ?_ ⟨rfl, rfl⟩
  intro i r _ h
  rw [readSite]
  cases load input i with
  | error e => exact trivial
  | ok site =>
      obtain ⟨hcout, hcount⟩ := indexSite_writes_nothing site r.2
      exact ⟨hcout.trans h.1, hcount.trans h.2⟩

/-- **The mark decides as the names do.** -/
theorem SitesRead.mem_edgeSet_iff {st : ReadState K} {ls : List (List Str × K)}
    (h : Reads st ls) {l : List Str × K} {r : List ℕ × ReadState K}
    (hr : SitesRead (ls.flatMap Prod.fst) st l.1 r)
    (hN : (siteNames (ls ++ [l])).length ≤ 2 ^ 32) :
    tostring (r.1.insertionSort (· ≤ ·)) ∈ r.2.edgeSet ↔ ∃ l' ∈ ls, l'.1.Perm l.1 := by
  have hnew : r.1.insertionSort (· ≤ ·) = (numbered (siteNames (ls ++ [l])) l).1 := by
    rw [numbered, siteNames_concat ls l, hr.first]
  have hkept : r.1.insertionSort (· ≤ ·) ∈ st.edges.map Prod.fst
      ↔ r.1.insertionSort (· ≤ ·) ∈ (ls.map (numbered (siteNames ls))).map Prod.fst := by
    rw [h.edges]
    exact mem_map_keepFirst
  have hmarks : tostring (r.1.insertionSort (· ≤ ·)) ∈ r.2.edgeSet
      ↔ r.1.insertionSort (· ≤ ·) ∈ (ls.map (numbered (siteNames ls))).map Prod.fst := by
    rw [hr.edgeSet, h.edgeSet, ← hkept]
    simp only [List.mem_map, tostring_inj]
  rw [hmarks, hnew, List.map_map, List.mem_map]
  constructor
  · rintro ⟨l', hl', heq⟩
    rw [Function.comp_apply, ← numbered_concat hl' l] at heq
    exact ⟨l', hl', (numbered_eq_iff hN (by simp [hl']) (by simp)).mp heq⟩
  · rintro ⟨l', hl', hperm⟩
    refine ⟨l', hl', ?_⟩
    rw [Function.comp_apply, ← numbered_concat hl' l]
    exact (numbered_eq_iff hN (by simp [hl']) (by simp)).mpr hperm

section Reported

variable [Field K] [LinearOrder K] {stod : Str → Option K}

/-- A line that is read: what it adds to the report. -/
theorem readEdge_reports (fuel : ℕ) {st : ReadState K} {lines : List Str}
    (h : Reads st (lines.filterMap (couplingLine stod))) (hcount : st.count = lines.length)
    {line : Str} (hadm : admitted line = true)
    (hN : (siteNames ((lines ++ [line]).filterMap (couplingLine stod))).length ≤ 2 ^ 32) :
    Meets (readEdge fuel stod st line) (fun _ => True) (fun st' =>
      st'.count = lines.length ∧
      st'.cout = st.cout ++ ((placedLine stod (lines.length + 1) line).toList.filter
        fun q => repeatsEarlier (placedLines stod lines) q == true).map PlacedLine.warning) := by
  have hne := tokens_ne_nil hadm
  have hline : couplingLine stod line = (stod ((tokens line).getLast hne)).bind fun val =>
      if val ≠ 0 then some ((tokens line).dropLast, val) else none := by
    rw [couplingLine, if_pos hadm, List.getLast?_eq_getLast_of_ne_nil hne, Option.bind_some]
    cases stod ((tokens line).getLast hne) <;> rfl
  show Meets (load (tokens line) (pred64 (tokens line).length) >>= _) _ _
  rw [load_last hne, ok_bind]
  cases hval : stod ((tokens line).getLast hne) with
  | none => exact trivial
  | some val =>
      rw [hval, Option.bind_some] at hline
      by_cases hz : val ≠ 0
      · rw [if_pos hz] at hline
        have hidx : Indexed st (keepFirst id
            ((lines.filterMap (couplingLine stod)).flatMap Prod.fst)) := ⟨h.index, h.size⟩
        have hnew : (lines ++ [line]).filterMap (couplingLine stod)
            = lines.filterMap (couplingLine stod) ++ [((tokens line).dropLast, val)] := by
          rw [List.filterMap_append]
          simp [hline]
        rw [hnew] at hN
        simp only [if_pos hz]
        cases hr : readSites fuel (getlines ' ' line) st with
        | error e => exact trivial
        | ok r =>
            have hsites := (readSites_spec fuel hne hidx).of_ok hr
            obtain ⟨hcout, hcount'⟩ := (readSites_writes_nothing fuel _ st).of_ok hr
            have hmark := SitesRead.mem_edgeSet_iff h (l := ((tokens line).dropLast, val)) hsites hN
            rw [← repeatsEarlier_new lines line] at hmark
            rw [ok_bind, placedLine, hline]
            by_cases hrep : repeatsEarlier (placedLines stod lines)
                ⟨lines.length + 1, line, ((tokens line).dropLast, val)⟩ = true
            · show (addEdge _ _ r.2).count = _ ∧ (addEdge _ _ r.2).cout = _
              rw [addEdge, if_pos (hmark.mpr hrep)]
              exact ⟨hcount'.trans hcount, by simp [hrep, hcout, hcount', hcount, PlacedLine.warning]⟩
            · show (addEdge _ _ r.2).count = _ ∧ (addEdge _ _ r.2).cout = _
              rw [addEdge, if_neg fun hm => hrep (hmark.mp hm)]
              exact ⟨hcount'.trans hcount, by simp [hrep, hcout]⟩
      · rw [if_neg hz] at hline
        simp only [if_neg hz, placedLine, hline]
        exact ⟨hcount, by simp⟩

/-- One line of the file: what it adds to the report. -/
theorem readLine_reports (fuel : ℕ) {st : ReadState K} {lines : List Str}
    (h : Reads st (lines.filterMap (couplingLine stod))) (hcount : st.count = lines.length)
    (line : Str)
    (hN : (siteNames ((lines ++ [line]).filterMap (couplingLine stod))).length ≤ 2 ^ 32) :
    Meets (readLine fuel stod st line) (fun _ => True) (fun st' =>
      st'.count = lines.length + 1 ∧
      st'.cout = st.cout ++ ((placedLine stod (lines.length + 1) line).toList.filter
        fun q => repeatsEarlier (placedLines stod lines) q == true).map PlacedLine.warning) := by
  have hbody : Meets (if admitted line then readEdge fuel stod st line else .ok st)
      (fun _ => True) (fun st' => st'.count = lines.length ∧
      st'.cout = st.cout ++ ((placedLine stod (lines.length + 1) line).toList.filter
        fun q => repeatsEarlier (placedLines stod lines) q == true).map PlacedLine.warning) := by
    by_cases hadm : admitted line = true
    · rw [if_pos hadm]
      exact readEdge_reports fuel h hcount hadm hN
    · rw [if_neg hadm, placedLine, couplingLine, if_neg hadm]
      exact ⟨hcount, by simp⟩
  apply hbody.bind
  rintro st' ⟨hcount', hcout⟩
  exact ⟨by rw [hcount'], hcout⟩

omit [Field K] [LinearOrder K] in
theorem length_siteNames_le (ls more : List (List Str × K)) :
    (siteNames ls).length ≤ (siteNames (ls ++ more)).length := by
  obtain ⟨extra, hextra⟩ : ∃ extra, keepFirst id (ls.flatMap Prod.fst ++ more.flatMap Prod.fst)
      = keepFirst id (ls.flatMap Prod.fst) ++ extra := keepFirst_append _ _
  rw [siteNames, siteNames, List.flatMap_append, hextra, List.length_append]
  exact Nat.le_add_right _ _

/-- **The whole file**: what has been reported when the reading loop ends. -/
theorem readFile_reports (fuel : ℕ) {text : Str}
    (hN : (siteNames (couplingLines stod text)).length ≤ 2 ^ 32) :
    Meets (readFile fuel stod text) (fun _ => True) (fun st =>
      Reads st (couplingLines stod text) ∧ st.count = (getlines '\n' text).length ∧
      st.cout = ((placedLines stod (getlines '\n' text)).filter fun p =>
        repeatsEarlier (placedLines stod (getlines '\n' text)) p == true).map
          PlacedLine.warning) := by
  refine meets_foldlM (fun done st => Reads st (done.filterMap (couplingLine stod)) ∧
    st.count = done.length ∧
    st.cout = ((placedLines stod done).filter fun p =>
      repeatsEarlier (placedLines stod done) p == true).map PlacedLine.warning)
    (getlines '\n' text) ?_ ⟨⟨rfl, rfl, rfl, rfl⟩, rfl, rfl⟩
  rintro done line rest hsplit st ⟨hreads, hcount, hcout⟩
  have hsofar : (siteNames ((done ++ [line]).filterMap (couplingLine stod))).length ≤ 2 ^ 32 := by
    have hall : couplingLines stod text = (done ++ [line]).filterMap (couplingLine stod)
        ++ rest.filterMap (couplingLine stod) := by
      rw [couplingLines, hsplit, ← List.filterMap_append, List.append_assoc, List.singleton_append]
    rw [hall] at hN
    exact (length_siteNames_le _ _).trans hN
  cases hr : readLine fuel stod st line with
  | error e => exact trivial
  | ok st' =>
      have hreads' := (readLine_reads fuel stod hreads line).of_ok hr
      obtain ⟨hcount', hcout'⟩ := (readLine_reports fuel hreads hcount line hsofar).of_ok hr
      refine ⟨?_, ?_, ?_⟩
      · rw [List.filterMap_append]
        cases hl : couplingLine stod line with
        | none => simpa [hl] using hreads'
        | some l => simpa [hl] using hreads'
      · rw [hcount', List.length_append, List.length_singleton]
      · rw [hcout', hcout, filter_repeatsEarlier_concat, List.map_append]

/-- **Every line with a coupling is kept or reported, with its own number.** On a file that
the constructor reads to its end, with names for at most `2^32` sites: the lines that name
the same sites as an earlier one are reported, in their order and each with its number in
the file, and nothing else is; the other ones become the edges, in their order; and so no
line with a non-zero coupling is lost without a word. -/
theorem constructor_reports {text : Str} {fuel : ℕ} {st : ReadState K}
    (hread : readFile fuel stod text = .ok st)
    (hN : (siteNames (couplingLines stod text)).length ≤ 2 ^ 32) {ps : List (PlacedLine K)}
    (hps : ps = placedLines stod (getlines '\n' text)) :
    st.cout = (ps.filter fun p => repeatsEarlier ps p).map PlacedLine.warning ∧
    st.edges = (ps.filter fun p => !repeatsEarlier ps p).map
      (fun p => numbered (siteNames (couplingLines stod text)) p.coupling) ∧
    st.edges.length + st.cout.length = (couplingLines stod text).length := by
  subst hps
  obtain ⟨hreads, -, hcout⟩ := (readFile_reports fuel hN).of_ok hread
  have hcout : st.cout = ((placedLines stod (getlines '\n' text)).filter fun p =>
      repeatsEarlier (placedLines stod (getlines '\n' text)) p).map PlacedLine.warning := by
    simpa using hcout
  have hkept := map_coupling_filter stod (getlines '\n' text)
  have hedges : st.edges = ((placedLines stod (getlines '\n' text)).filter fun p =>
      !repeatsEarlier (placedLines stod (getlines '\n' text)) p).map
        (fun p => numbered (siteNames (couplingLines stod text)) p.coupling) := by
    have h : st.edges = edgesOf (couplingLines stod text) := hreads.edges
    rw [h, edgesOf_eq hN, couplingLines, ← hkept, List.map_map]
    simp only [beq_false]
    rfl
  refine ⟨hcout, hedges, ?_⟩
  have hall : (couplingLines stod text).length
      = (placedLines stod (getlines '\n' text)).length := by
    rw [couplingLines, ← map_coupling_placedLines, List.length_map]
  rw [hcout, hedges, List.length_map, List.length_map, hall, Nat.add_comm]
  exact (List.length_eq_length_filter_add _).symm

end Reported

/-- In the sample lattice the third line names the sites of the second one. -/
theorem constructor_reports_sample :
    ∃ st, readFile 4 stodInteger sampleText = .ok st ∧
      st.cout = ["warning: duplicate edge (5 7 3)   line: 3".toList] ∧ st.edges.length = 3 := by
  have hN : (siteNames (couplingLines stodInteger sampleText)).length ≤ 2 ^ 32 := by decide
  have hcount : (couplingLines stodInteger sampleText).length = 4 := by decide
  obtain ⟨st, hst⟩ : ∃ st, readFile 4 stodInteger sampleText = .ok st := ⟨_, rfl⟩
  obtain ⟨hcout, -, hlength⟩ := constructor_reports hst hN rfl
  have hreport : st.cout = ["warning: duplicate edge (5 7 3)   line: 3".toList] :=
    hcout.trans (by decide)
  rw [hcount, hreport, List.length_singleton] at hlength
  exact ⟨st, hst, hreport, by omega⟩

end SpinGlass
