import SpinGlass.RepeatedSites

/-!
# FileIncidence — the Hamiltonian as the incidence lists of the file

`hamiltonianType_ok_iff` says when the constructor returns and with what:
every line that is read ends in a number, no coupling line is too long for
the 32-bit counter of the loop over its sites, and the result is the one
Hamiltonian that is `Built` from the coupling lines. `FileIncidence` states
that result in the names of the file; `tostring`, on which both passes of
the constructor rest, merges no two edges.
-/

namespace SpinGlass

open CountedLoop KeepFirst Text

variable {K : Type}

/-! ## The result of the constructor -/

/-- The coupling lines determine the Hamiltonian. -/
theorem Built.unique {H H' : HamiltonianType K} {ls : List (List Str × K)} (h : Built H ls)
    (h' : Built H' ls) : H = H' := by
  have hnodes : H.nodes_ = H'.nodes_ := by
    rw [h.incidence.nodes, h'.incidence.nodes, h.size, h'.size]
  cases H
  cases H'
  exact congrArg _ hnodes

variable [Field K] [LinearOrder K]

omit [Field K] [LinearOrder K] in
/-- The loop over the sites of a line ends only when its counter holds their number. -/
theorem readSites_ok {fuel : ℕ} {input : List Str} (hne : input ≠ []) {st : ReadState K}
    {r : List ℕ × ReadState K} (h : readSites fuel input st = .ok r) :
    input.dropLast.length < 2 ^ 32 ∧ input.dropLast.length < fuel := by
  obtain ⟨hlt, hf, -⟩ := forUnsigned_ok_iff.mp h
  rw [pred64_of_pos (List.length_pos_iff.mpr hne)] at hlt hf
  rw [List.length_dropLast]
  exact ⟨hlt, hf⟩

/-- What a line is like on which the constructor goes on. -/
theorem readLine_ok {fuel : ℕ} {stod : Str → Option K} {st st' : ReadState K} {line : Str}
    (h : readLine fuel stod st line = .ok st') :
    (admitted line = true → ((tokens line).getLast?.bind stod).isSome) ∧
      ∀ l ∈ couplingLine stod line, l.1.length < 2 ^ 32 ∧ l.1.length < fuel := by
  obtain ⟨st₁, hread, -⟩ := bind_eq_ok.mp h
  by_cases hadm : admitted line = true
  · have hne := tokens_ne_nil hadm
    rw [if_pos hadm] at hread
    rw [couplingLine, if_pos hadm, List.getLast?_eq_getLast_of_ne_nil hne, Option.bind_some]
    obtain ⟨last, hlast, hread⟩ := bind_eq_ok.mp hread
    have hload : load (tokens line) (pred64 (tokens line).length) = .ok last := hlast
    rw [load_last hne] at hload
    cases hload
    cases hval : stod ((tokens line).getLast hne) with
    | none =>
        rw [hval] at hread
        cases hread
    | some val =>
        rw [hval] at hread
        refine ⟨fun _ => rfl, fun l hl => ?_⟩
        by_cases hz : val ≠ 0
        · simp only [if_pos hz] at hread hl
          cases hl
          obtain ⟨r, hr, -⟩ := bind_eq_ok.mp hread
          exact readSites_ok hne hr
        · simp only [if_neg hz] at hl
          cases hl
  · rw [couplingLine, if_neg hadm]
    exact ⟨fun hc => absurd hc hadm, by simp⟩

/-- **When the constructor returns, and with what.** -/
theorem hamiltonianType_ok_iff {fuel : ℕ} {stod : Str → Option K} {text : Str}
    {H : HamiltonianType K} :
    hamiltonianType fuel stod text = .ok H ↔
      AllNumeric stod text ∧
        (∀ l ∈ couplingLines stod text, l.1.length < 2 ^ 32 ∧ l.1.length < fuel) ∧
        Built H (couplingLines stod text) := by
  constructor
  · intro h
    obtain ⟨st, hst, -⟩ := bind_eq_ok.mp h
    have hlines : Meets (readFile fuel stod text) (fun _ => True) (fun _ =>
        ∀ line ∈ getlines '\n' text,
          (admitted line = true → ((tokens line).getLast?.bind stod).isSome) ∧
            ∀ l ∈ couplingLine stod line, l.1.length < 2 ^ 32 ∧ l.1.length < fuel) := by
      refine meets_foldlM (fun done _ => ∀ line ∈ done,
        (admitted line = true → ((tokens line).getLast?.bind stod).isSome) ∧
          ∀ l ∈ couplingLine stod line, l.1.length < 2 ^ 32 ∧ l.1.length < fuel)
        _ (fun done line rest _ st hdone => ?_) (by simp)
      cases hread : readLine fuel stod st line with
      | error e => trivial
      | ok st' =>
          intro line' hline'
          rcases List.mem_append.mp hline' with hline' | hline'
          · exact hdone line' hline'
          · rw [List.mem_singleton.mp hline']
            exact readLine_ok hread
    have hall := hlines.of_ok hst
    refine ⟨fun line hline => (hall line hline).1, fun l hl => ?_,
      (hamiltonianType_built fuel stod text).of_ok h⟩
    obtain ⟨line, hline, hl⟩ := List.mem_filterMap.mp hl
    exact (hall line hline).2 l hl
  · rintro ⟨hnum, hshort, hbuilt⟩
    obtain ⟨-, H', -, hH'⟩ := hamiltonianType_returns hnum hshort
    rw [hH', ((hamiltonianType_built fuel stod text).of_ok hH').unique hbuilt]

/-- The constructor returns `H`, with whatever fuel from some bound on. -/
def Builds (stod : Str → Option K) (text : Str) (H : HamiltonianType K) : Prop :=
  ∃ bound, ∀ fuel, bound ≤ fuel → hamiltonianType fuel stod text = .ok H

theorem builds_iff {stod : Str → Option K} {text : Str} {H : HamiltonianType K} :
    Builds stod text H ↔
      AllNumeric stod text ∧ (∀ l ∈ couplingLines stod text, l.1.length < 2 ^ 32) ∧
        Built H (couplingLines stod text) := by
  constructor
  · rintro ⟨bound, h⟩
    obtain ⟨hnum, hshort, hbuilt⟩ := hamiltonianType_ok_iff.mp (h bound (le_refl bound))
    exact ⟨hnum, fun l hl => (hshort l hl).1, hbuilt⟩
  · rintro ⟨hnum, hshort, hbuilt⟩
    refine ⟨2 ^ 32, fun fuel hf => hamiltonianType_ok_iff.mpr ⟨hnum, fun l hl => ?_, hbuilt⟩⟩
    exact ⟨hshort l hl, Nat.lt_of_lt_of_le (hshort l hl) hf⟩

/-- A Hamiltonian that the constructor returns with some fuel it returns with more. -/
theorem builds_of_ok {fuel : ℕ} {stod : Str → Option K} {text : Str} {H : HamiltonianType K}
    (h : hamiltonianType fuel stod text = .ok H) : Builds stod text H := by
  obtain ⟨hnum, hshort, hbuilt⟩ := hamiltonianType_ok_iff.mp h
  exact builds_iff.mpr ⟨hnum, fun l hl => (hshort l hl).1, hbuilt⟩

/-- Coupling lines that the counter holds have a Hamiltonian. -/
theorem exists_builds {stod : Str → Option K} {text : Str} (hnum : AllNumeric stod text)
    (hshort : ∀ l ∈ couplingLines stod text, l.1.length < 2 ^ 32) :
    ∃ H, Builds stod text H := by
  have hfuel : ∀ l ∈ couplingLines stod text, l.1.length < 2 ^ 32 ∧ l.1.length < 2 ^ 32 :=
    fun l hl => ⟨hshort l hl, hshort l hl⟩
  obtain ⟨-, H, -, hH⟩ := hamiltonianType_returns hnum hfuel
  exact ⟨H, builds_of_ok hH⟩

/-! ## The incidence structure of the file -/

/-- The ascending list of the numbers that the sites of a line have in the order of their
first appearance, and the coupling. -/
def ascending (names : List Str) (l : List Str × K) : EdgeType K :=
  ((l.1.map names.idxOf).insertionSort (· ≤ ·), l.2)

/-- `H` is the incidence structure of the file: it has a node for every site name, in the
order of their first appearance, and the node of a name holds the lines that name it and
are the first with their multiset of sites, in the order of the file. -/
structure FileIncidence (stod : Str → Option K) (text : Str) (H : HamiltonianType K) :
    Prop where
  size : H.size = ((couplingLines stod text).flatMap Prod.fst).toFinset.card
  nodes : ∀ (a : ℕ) (x : Str), (siteNames (couplingLines stod text))[a]? = some x →
    H.nodes_[a]? = some (((distinctLines stod text).filter fun l => x ∈ l.1).map
      (ascending (siteNames (couplingLines stod text))))
  distinct : ∀ node ∈ H.nodes_, (node.map Prod.fst).Nodup
  nonempty : ∀ node ∈ H.nodes_, node ≠ []

omit [Field K] [LinearOrder K] in
/-- The names are as many as the distinct tokens. -/
theorem length_siteNames (ls : List (List Str × K)) :
    (siteNames ls).length = (ls.flatMap Prod.fst).toFinset.card := by
  rw [← List.toFinset_card_of_nodup (nodup_siteNames ls)]
  congr 1
  ext x
  rw [List.mem_toFinset, List.mem_toFinset, siteNames, mem_keepFirst_id]

omit [Field K] [LinearOrder K] in
theorem siteNumber_of_getElem? {ls : List (List Str × K)}
    (hN : (siteNames ls).length ≤ 2 ^ 32) {a : ℕ} {x : Str}
    (ha : (siteNames ls)[a]? = some x) : siteNumber (siteNames ls) x = a := by
  obtain ⟨hlt, rfl⟩ := List.getElem?_eq_some_iff.mp ha
  rw [siteNumber, (nodup_siteNames ls).idxOf_getElem, Nat.mod_eq_of_lt (by omega)]

omit [Field K] [LinearOrder K] in
/-- The 32-bit numbers are the places of the names. -/
theorem numbered_eq_ascending {ls : List (List Str × K)} (hN : (siteNames ls).length ≤ 2 ^ 32)
    {l : List Str × K} (hl : l ∈ ls) :
    numbered (siteNames ls) l = ascending (siteNames ls) l := by
  have hmap : l.1.map (siteNumber (siteNames ls)) = l.1.map (siteNames ls).idxOf := by
    apply List.map_congr_left
    intro x hx
    have hlt := List.idxOf_lt_length_of_mem (mem_siteNames.mpr ⟨l, hl, hx⟩)
    rw [siteNumber, Nat.mod_eq_of_lt (by omega)]
  rw [numbered, ascending, hmap]

omit [Field K] [LinearOrder K] in
/-- The lines of a name are the edges with its number. -/
theorem mem_numbered_iff {ls : List (List Str × K)} (hN : (siteNames ls).length ≤ 2 ^ 32)
    {a : ℕ} {x : Str} (ha : (siteNames ls)[a]? = some x) {l : List Str × K} (hl : l ∈ ls) :
    a ∈ (numbered (siteNames ls) l).1 ↔ x ∈ l.1 := by
  rw [mem_numbered]
  constructor
  · rintro ⟨y, hy, hya⟩
    rw [← siteNumber_of_getElem? hN ha] at hya
    rwa [siteNumber_inj hN (mem_siteNames.mpr ⟨l, hl, hy⟩) (List.mem_of_getElem? ha) hya] at hy
  · intro hx
    exact ⟨x, hx, siteNumber_of_getElem? hN ha⟩

/-- The node of a name holds its lines. -/
theorem Built.node {stod : Str → Option K} {text : Str} {H : HamiltonianType K}
    (h : Built H (couplingLines stod text))
    (hN : (siteNames (couplingLines stod text)).length ≤ 2 ^ 32) {a : ℕ} {x : Str}
    (hax : (siteNames (couplingLines stod text))[a]? = some x) :
    H.nodes_[a]? = some (((distinctLines stod text).filter fun l => x ∈ l.1).map
      (ascending (siteNames (couplingLines stod text)))) := by
  have ha : a < H.size := by
    rw [h.size]
    exact (List.getElem?_eq_some_iff.mp hax).1
  have hfilter : (distinctLines stod text).filter ((fun e : EdgeType K => decide (a ∈ e.1))
        ∘ numbered (siteNames (couplingLines stod text)))
      = (distinctLines stod text).filter fun l => x ∈ l.1 := by
    apply List.filter_congr
    intro l hl
    exact decide_eq_decide.mpr (mem_numbered_iff hN hax (mem_of_mem_keepFirst hl))
  rw [h.incidence.nodes, List.getElem?_map, List.getElem?_range ha, edgesOf_eq hN,
    Option.map_some, List.filter_map, Option.some.injEq]
  show ((distinctLines stod text).filter _).map _ = _
  rw [hfilter]
  apply List.map_congr_left
  intro l hl
  exact numbered_eq_ascending hN (mem_of_mem_keepFirst (List.mem_of_mem_filter hl))

/-- Every name has a line that is kept, up to the order of its sites. -/
theorem exists_distinctLine {stod : Str → Option K} {text : Str} {x : Str}
    (hx : x ∈ siteNames (couplingLines stod text)) :
    ∃ l ∈ distinctLines stod text, x ∈ l.1 := by
  obtain ⟨l, hl, hxl⟩ := mem_siteNames.mp hx
  have hkey : (l.1 : Multiset Str) ∈ (distinctLines stod text).map fun l => (l.1 : Multiset Str) :=
    mem_map_keepFirst.mpr (List.mem_map_of_mem hl)
  obtain ⟨l', hl', hperm⟩ := List.mem_map.mp hkey
  exact ⟨l', hl', (Multiset.coe_eq_coe.mp hperm).mem_iff.mpr hxl⟩

/-- The one Hamiltonian of the coupling lines is their incidence structure. -/
theorem Built.fileIncidence {stod : Str → Option K} {text : Str} {H : HamiltonianType K}
    (h : Built H (couplingLines stod text))
    (hN : (siteNames (couplingLines stod text)).length ≤ 2 ^ 32) :
    FileIncidence stod text H where
  size := h.size.trans (length_siteNames _)
  nodes _ _ hax := h.node hN hax
  distinct := by
    intro node hnode
    rw [h.incidence.nodes] at hnode
    obtain ⟨a, -, rfl⟩ := List.mem_map.mp hnode
    exact (nodup_map_keepFirst _).sublist (List.filter_sublist.map _)
  nonempty := by
    intro node hnode
    obtain ⟨a, ha, rfl⟩ := List.mem_iff_getElem.mp hnode
    have hlt : a < (siteNames (couplingLines stod text)).length := by
      rw [← h.size]
      exact ha
    have hx := h.node hN (List.getElem?_eq_getElem hlt)
    rw [List.getElem?_eq_getElem ha, Option.some.injEq] at hx
    rw [hx]
    obtain ⟨l, hl, hxl⟩ := exists_distinctLine (List.getElem_mem hlt)
    exact List.ne_nil_of_mem (List.mem_map_of_mem
      (List.mem_filter.mpr ⟨hl, by simpa using hxl⟩))

/-- **When the constructor computes the incidence structure of the file.** On a text whose
admitted lines end in numbers and that has fewer than `2 ^ 32` site names, it does so
exactly when no coupling line has `2 ^ 32` sites or more, which the counter of the loop
over the sites does not hold. -/
theorem computes_incidence_iff {stod : Str → Option K} {text : Str}
    (hnum : AllNumeric stod text)
    (hN : (siteNames (couplingLines stod text)).length < 2 ^ 32) :
    (∃ H, Builds stod text H ∧ FileIncidence stod text H) ↔
      ∀ l ∈ couplingLines stod text, l.1.length < 2 ^ 32 := by
  constructor
  · rintro ⟨H, hH, -⟩
    exact (builds_iff.mp hH).2.1
  · intro hshort
    obtain ⟨H, hH⟩ := exists_builds hnum hshort
    exact ⟨H, hH, (builds_iff.mp hH).2.2.fileIncidence (Nat.le_of_lt hN)⟩

/-- The line that names site `1` `n` times, with coupling `1`. -/
def repeatedLine (n : ℕ) : Str := (List.replicate n ['1', ' ']).flatten ++ ['1']

/-- The text of one line that names site `1` `2 ^ 32` times. -/
def longText : Str := repeatedLine (2 ^ 32) ++ ['\n']

theorem tokens_repeatedLine (n : ℕ) : tokens (repeatedLine n) = List.replicate (n + 1) ['1'] := by
  induction n with
  | zero => decide
  | succ n ih =>
      have hline : repeatedLine (n + 1) = ['1'] ++ ' ' :: repeatedLine n := by
        simp [repeatedLine, List.replicate_succ]
      rw [hline, tokens, getlines_append_cons, getlines_concat_of_notMem (by decide)]
      show ['1'] :: tokens (repeatedLine n) = _
      rw [ih]
      rfl

theorem notMem_repeatedLine {c : Char} (h1 : c ≠ '1') (hb : c ≠ ' ') (n : ℕ) :
    c ∉ repeatedLine n := by
  intro hc
  rcases List.mem_append.mp hc with hc | hc
  · obtain ⟨l, hl, hcl⟩ := List.mem_flatten.mp hc
    rw [List.eq_of_mem_replicate hl] at hcl
    simp [h1, hb] at hcl
  · exact h1 (List.mem_singleton.mp hc)

theorem couplingLines_repeatedLine {n : ℕ} (hn : 0 < n) :
    couplingLines stodInteger (repeatedLine n ++ ['\n']) = [(List.replicate n ['1'], 1)] := by
  have hblank : ' ' ∈ repeatedLine n := by
    obtain ⟨m, rfl⟩ := Nat.exists_eq_succ_of_ne_zero (Nat.ne_of_gt hn)
    simp [repeatedLine, List.replicate_succ]
  have hadm : admitted (repeatedLine n) = true := by
    have hhash := notMem_repeatedLine (c := '#') (by decide) (by decide) n
    simp [admitted, hblank, hhash]
  have hone : stodInteger ['1'] = some 1 := by decide
  rw [couplingLines,
    getlines_concat_of_notMem (notMem_repeatedLine (by decide) (by decide) n), List.filterMap_cons,
    couplingLine, if_pos hadm, tokens_repeatedLine, List.replicate_succ', List.getLast?_concat,
    Option.bind_some, hone, List.dropLast_concat]
  simp

theorem allNumeric_repeatedLine (n : ℕ) :
    AllNumeric stodInteger (repeatedLine n ++ ['\n']) := by
  intro line hline _
  rw [getlines_concat_of_notMem (notMem_repeatedLine (by decide) (by decide) n),
    List.mem_singleton] at hline
  rw [hline, tokens_repeatedLine, List.replicate_succ', List.getLast?_concat]
  decide

/-- A line that names one site `2 ^ 32` times is read for ever. -/
theorem long_line_is_not_read :
    AllNumeric stodInteger longText ∧
      (siteNames (couplingLines stodInteger longText)).length < 2 ^ 32 ∧
      ¬ ∃ H, Builds stodInteger longText H ∧ FileIncidence stodInteger longText H := by
  have hlines : couplingLines stodInteger longText = [(List.replicate (2 ^ 32) ['1'], 1)] :=
    couplingLines_repeatedLine (Nat.two_pow_pos 32)
  refine ⟨allNumeric_repeatedLine _, ?_, ?_⟩
  · have hone : ([(List.replicate (2 ^ 32) ['1'], (1 : ℚ))].flatMap Prod.fst).toFinset
        ⊆ {['1']} := by
      intro x hx
      obtain ⟨l, hl, hxl⟩ := List.mem_flatMap.mp (List.mem_toFinset.mp hx)
      rw [List.mem_singleton.mp hl] at hxl
      exact Finset.mem_singleton.mpr (List.eq_of_mem_replicate hxl)
    rw [hlines, length_siteNames]
    exact Nat.lt_of_le_of_lt (Finset.card_le_card hone) (by decide)
  · rintro ⟨H, hH, -⟩
    have hshort := (builds_iff.mp hH).2.1
    rw [hlines] at hshort
    have hlt := hshort _ (List.mem_singleton.mpr rfl)
    rw [List.length_replicate] at hlt
    exact absurd hlt (Nat.lt_irrefl _)

/-- The sample file has short lines. -/
theorem computes_incidence_iff_sample :
    ∃ H, Builds stodInteger sampleText H ∧ FileIncidence stodInteger sampleText H := by
  have hnum : AllNumeric stodInteger sampleText := by
    unfold AllNumeric
    decide
  exact (computes_incidence_iff hnum (by decide)).mpr (by decide)

/-! ## Marks -/

/-- **The marks are collision free.** No two vectors share one; sorted vectors share one
exactly when they have the same multiset of numbers; so every coupling line has an edge
with its site numbers among those that are kept, and every edge that is kept stands at
all of its sites. -/
theorem marks_collision_free :
    (∀ u v : List ℕ, tostring u = tostring v ↔ u = v) ∧
    (∀ u v : List ℕ, tostring (u.insertionSort (· ≤ ·)) = tostring (v.insertionSort (· ≤ ·)) ↔
      (u : Multiset ℕ) = v) ∧
    ∀ (fuel : ℕ) (stod : Str → Option K) (text : Str) (st : ReadState K)
      (H : HamiltonianType K), readFile fuel stod text = .ok st →
      hamiltonianType fuel stod text = .ok H →
      (∀ l ∈ couplingLines stod text, ∃ e ∈ st.edges,
        e.1 = (numbered (siteNames (couplingLines stod text)) l).1) ∧
      ∀ e ∈ st.edges, ∀ a ∈ e.1, ∃ node, H.nodes_[a]? = some node ∧ e ∈ node := by
  refine ⟨fun u v => tostring_inj, fun u v => ?_, fun fuel stod text st H hst hH => ?_⟩
  · rw [tostring_inj, Multiset.coe_eq_coe]
    exact insertionSort_eq_iff
  · have hedges : st.edges = edgesOf (couplingLines stod text) :=
      ((readFile_reads fuel stod text).of_ok hst).edges
    obtain ⟨-, hI⟩ := (hamiltonianType_built fuel stod text).of_ok hH
    rw [hedges]
    constructor
    · intro l hl
      have hkey : (numbered (siteNames (couplingLines stod text)) l).1
          ∈ (edgesOf (couplingLines stod text)).map Prod.fst :=
        mem_map_keepFirst.mpr (List.mem_map_of_mem (List.mem_map_of_mem hl))
      obtain ⟨e, he, hel⟩ := List.mem_map.mp hkey
      exact ⟨e, he, hel⟩
    · intro e he a ha
      refine ⟨_, load_eq_ok.mp (hI.load (hI.sites_lt e he a ha)), ?_⟩
      exact List.mem_filter.mpr ⟨he, by simpa using ha⟩

/-- The lines `7 5 2` and `5 7 3` of the sample file have one edge between them. -/
theorem marks_collision_free_sample :
    ∃ st, readFile 4 stodInteger sampleText = .ok st ∧
      ∀ l ∈ couplingLines stodInteger sampleText, ∃ e ∈ st.edges,
        e.1 = (numbered (siteNames (couplingLines stodInteger sampleText)) l).1 := by
  have hbuild : hamiltonianType 4 stodInteger sampleText = .ok sampleH := by decide
  obtain ⟨st, hst, -⟩ := bind_eq_ok.mp hbuild
  exact ⟨st, hst, (marks_collision_free.2.2 4 stodInteger sampleText st sampleH hst hbuild).1⟩

end SpinGlass
