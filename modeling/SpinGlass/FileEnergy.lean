import SpinGlass.Runs
import Mathlib.Data.Finset.Dedup

/-!
# FileEnergy — from the text of the file to the energy of a configuration

`fileEnergy` is the Ising energy that the file describes, in terms of site
names alone. The numbering of the sites carries it to the energy of the
numbered edges (`edgesOf_eq`), which is what `compute_energy` adds up.
-/

namespace SpinGlass

open CountedLoop MultiSpin KeepFirst Text

variable {K : Type}

/-! ## The energy of the file -/

section Spec

variable [Field K] [LinearOrder K]

/-- The lines that count: read as an edge, with a non-zero coupling and a site, and
the first of them with their set of sites. -/
def countedLines (stod : Str → Option K) (text : Str) : List (List Str × K) :=
  keepFirst (fun l => l.1.toFinset)
    ((couplingLines stod text).filter fun l => l.1 ≠ [])

/-- **The Ising energy of the file**, for bits `bit` on the site names. -/
def fileEnergy (stod : Str → Option K) (text : Str) (bit : Str → ℕ) : K :=
  ((countedLines stod text).map fun l =>
    l.2 * (l.1.map fun x => ofBit (bit x)).prod).sum

end Spec

/-- `spins` holds the bit of every site at the number the constructor gave the site. -/
structure Numbered (st : ReadState K) (bit : Str → ℕ) (spins : List ℕ) : Prop where
  length : spins.length = st.N
  bits : ∀ x a, (x, a) ∈ st.index → spins[a]? = some (bit x)

/-! ## Lines and edges -/

theorem getD_siteNumber {names : List Str} (hN : names.length ≤ 2 ^ 32) {x : Str}
    (hx : x ∈ names) : names.getD (siteNumber names x) [] = x := by
  have hlt := List.idxOf_lt_length_of_mem hx
  rw [siteNumber, Nat.mod_eq_of_lt (by omega), List.getD_eq_getElem _ _ hlt,
    List.getElem_idxOf]

/-- Sorted lists of numbers are the same when they are sorted from the same multiset. -/
theorem insertionSort_eq_iff {u v : List ℕ} :
    u.insertionSort (· ≤ ·) = v.insertionSort (· ≤ ·) ↔ u.Perm v := by
  constructor
  · intro h
    exact (List.perm_insertionSort _ u).symm.trans (h ▸ List.perm_insertionSort _ v)
  · intro h
    have hsame := (List.perm_insertionSort (· ≤ ·) u).trans
      (h.trans (List.perm_insertionSort (· ≤ ·) v).symm)
    exact hsame.eq_of_pairwise (fun a b _ _ => Nat.le_antisymm)
      (List.pairwise_insertionSort _ _) (List.pairwise_insertionSort _ _)

/-- Two lines give the same numbers exactly when they name the same multiset of sites. -/
theorem numbered_eq_iff {ls : List (List Str × K)} (hN : (siteNames ls).length ≤ 2 ^ 32)
    {l l' : List Str × K} (hl : l ∈ ls) (hl' : l' ∈ ls) :
    (numbered (siteNames ls) l).1 = (numbered (siteNames ls) l').1 ↔ l.1.Perm l'.1 := by
  have hback : ∀ m ∈ ls, (m.1.map (siteNumber (siteNames ls))).map
      (fun a => (siteNames ls).getD a []) = m.1 := by
    intro m hm
    rw [List.map_map]
    refine (List.map_congr_left fun x hx => ?_).trans (List.map_id m.1)
    exact getD_siteNumber hN (mem_siteNames.mpr ⟨m, hm, hx⟩)
  rw [numbered, numbered, insertionSort_eq_iff]
  constructor
  · intro h
    have hnames := h.map fun a => (siteNames ls).getD a []
    rwa [hback l hl, hback l' hl'] at hnames
  · intro h
    exact h.map _

/-- **The edges of the file are its lines, numbered**: a line is dropped exactly when an
earlier line names the same multiset of sites. -/
theorem edgesOf_eq {ls : List (List Str × K)} (hN : (siteNames ls).length ≤ 2 ^ 32) :
    edgesOf ls = (keepFirst (fun l : List Str × K => (l.1 : Multiset Str)) ls).map
      (numbered (siteNames ls)) := by
  refine (map_keepFirst fun l hl l' hl' => ?_).symm
  rw [Multiset.coe_eq_coe]
  exact numbered_eq_iff hN hl hl'

/-! ## Energies -/

theorem mem_numbered_nil {names : List Str} {l : List Str × K} :
    (numbered names l).1 = [] ↔ l.1 = [] := by
  have h := (List.perm_insertionSort (· ≤ ·) (l.1.map (siteNumber names))).length_eq
  rw [← List.length_eq_zero_iff, ← List.length_eq_zero_iff, numbered, h, List.length_map]

section Energies

variable [Field K]

/-- The bit of a named site stands at the number of the site. -/
theorem Numbered.spinAt {st : ReadState K} {ls : List (List Str × K)} (hst : Reads st ls)
    {bit : Str → ℕ} {spins : List ℕ} (h : Numbered st bit spins) {x : Str}
    (hx : x ∈ siteNames ls) :
    spinAt spins (siteNumber (siteNames ls) x) = (ofBit (bit x) : K) := by
  have hmem : (x, siteNumber (siteNames ls) x) ∈ st.index := by
    rw [hst.index, List.mem_map]
    refine ⟨(x, (siteNames ls).idxOf x), ?_, rfl⟩
    rw [List.mem_zipIdx_iff_getElem?]
    exact List.getElem?_idxOf hx
  have hget := h.bits x _ hmem
  rw [SpinGlass.spinAt, List.getD_eq_getElem?_getD, hget, Option.getD_some]

/-- The product of the spins of a numbered edge is that of the sites on its line. -/
theorem corr_numbered {st : ReadState K} {ls : List (List Str × K)} (hst : Reads st ls)
    {bit : Str → ℕ} {spins : List ℕ} (h : Numbered st bit spins) {l : List Str × K}
    (hl : l ∈ ls) :
    corr (SpinGlass.spinAt spins) (numbered (siteNames ls) l).1
      = (l.1.map fun x => (ofBit (bit x) : K)).prod := by
  rw [numbered, corr_perm (List.perm_insertionSort _ _), corr_map]
  congr 1
  exact List.map_congr_left fun x hx => h.spinAt hst (mem_siteNames.mpr ⟨l, hl, hx⟩)

/-- The energy of the edges that some node stores is the energy of the file. -/
theorem energy_edgesOf [LinearOrder K] {stod : Str → Option K} {text : Str}
    (honce : NoSiteTwice text)
    (hN : (siteNames (couplingLines stod text)).length ≤ 2 ^ 32) {st : ReadState K}
    (hst : Reads st (couplingLines stod text)) {bit : Str → ℕ} {spins : List ℕ}
    (h : Numbered st bit spins) :
    energy (SpinGlass.spinAt spins)
        ((edgesOf (couplingLines stod text)).filter fun e => e.1 ≠ [])
      = fileEnergy stod text bit := by
  -- without repetitions the multiset and the set of the names tell the same lines apart
  have hkey : ∀ l ∈ couplingLines stod text, ∀ l' ∈ couplingLines stod text,
      (l.1 : Multiset Str) = (l'.1 : Multiset Str) ↔ l.1.toFinset = l'.1.toFinset := by
    intro l hl l' hl'
    rw [Multiset.coe_eq_coe, List.toFinset_eq_iff_perm_dedup,
      (nodup_of_mem_couplingLines honce hl).dedup, (nodup_of_mem_couplingLines honce hl').dedup]
  have hfilter : ((edgesOf (couplingLines stod text)).filter fun e => e.1 ≠ [])
      = (countedLines stod text).map (numbered (siteNames (couplingLines stod text))) := by
    rw [edgesOf_eq hN, List.filter_map, countedLines]
    congr 1
    rw [← filter_keepFirst, ← keepFirst_congr hkey]
    · apply List.filter_congr
      intro l _
      simp only [Function.comp_apply, ne_eq, mem_numbered_nil]
    · intro l hl l' hl' hll
      have hnil : l.1 = [] ↔ l'.1 = [] := by
        rw [← List.toFinset_eq_empty_iff, ← List.toFinset_eq_empty_iff, hll]
      simp only [ne_eq, hnil]
  rw [hfilter, energy, fileEnergy, List.map_map]
  congr 1
  apply List.map_congr_left
  intro l hl
  have hmem : l ∈ couplingLines stod text := List.mem_of_mem_filter (mem_of_mem_keepFirst hl)
  rw [Function.comp_apply, corr_numbered hst h hmem]
  rfl

end Energies

/-! ## The whole chain -/

section Chain

variable [Field K] [LinearOrder K] [IsStrictOrderedRing K]

omit [Field K] [LinearOrder K] [IsStrictOrderedRing K] in
/-- Some vector holds the bits, as long as different names have different numbers. -/
theorem exists_numbered {st : ReadState K} {ls : List (List Str × K)} (hst : Reads st ls)
    (hN : (siteNames ls).length ≤ 2 ^ 32) (bit : Str → ℕ) :
    Numbered st bit ((siteNames ls).map bit) := by
  refine ⟨by rw [List.length_map, hst.size], fun x a hxa => ?_⟩
  rw [hst.index, List.mem_map] at hxa
  obtain ⟨⟨y, i⟩, hyi, heq⟩ := hxa
  rw [List.mem_zipIdx_iff_getElem?] at hyi
  have hlt : i < (siteNames ls).length := (List.getElem?_eq_some_iff.mp hyi).1
  simp only [Prod.mk.injEq] at heq
  obtain ⟨rfl, rfl⟩ := heq
  rw [Nat.mod_eq_of_lt (by omega), List.getElem?_map, hyi]
  rfl

omit [Field K] [LinearOrder K] [IsStrictOrderedRing K] in
/-- That vector is the only one: every place of it is the number of a name. -/
theorem Numbered.eq_map {st : ReadState K} {ls : List (List Str × K)} (hst : Reads st ls)
    (hN : (siteNames ls).length ≤ 2 ^ 32) {bit : Str → ℕ} {spins : List ℕ}
    (h : Numbered st bit spins) : spins = (siteNames ls).map bit := by
  have hother := exists_numbered hst hN bit
  apply List.ext_getElem?
  intro i
  by_cases hi : i < (siteNames ls).length
  · have hmem : ((siteNames ls)[i], i) ∈ st.index := by
      rw [hst.index, List.mem_map]
      refine ⟨((siteNames ls)[i], i), ?_, ?_⟩
      · rw [List.mem_zipIdx_iff_getElem?]
        exact List.getElem?_eq_getElem hi
      · rw [Nat.mod_eq_of_lt (by omega)]
    rw [h.bits _ _ hmem, hother.bits _ _ hmem]
  · have hlen : spins.length ≤ i := by
      rw [h.length, hst.size]
      omega
    rw [List.getElem?_eq_none hlen, List.getElem?_eq_none (by rw [List.length_map]; omega)]

omit [IsStrictOrderedRing K] in
/-- A line that repeats no site is no longer than the list of names. -/
theorem length_le_siteNames {stod : Str → Option K} {text : Str} (honce : NoSiteTwice text)
    {l : List Str × K} (hl : l ∈ couplingLines stod text) :
    l.1.length ≤ (siteNames (couplingLines stod text)).length := by
  have hsubset : l.1 ⊆ siteNames (couplingLines stod text) :=
    fun x hx => mem_siteNames.mpr ⟨l, hl, hx⟩
  exact ((nodup_of_mem_couplingLines honce hl).subperm hsubset).length_le

/-- On a vector that holds the bits of the sites, `compute_energy` is the energy of the file. -/
theorem Numbered.computeEnergy {stod : Str → Option K} {text : Str} (honce : NoSiteTwice text)
    {bit : Str → ℕ} (hbit : ∀ x, bit x = 0 ∨ bit x = 1) {buildFuel fuel : ℕ} {st : ReadState K}
    {H : HamiltonianType K} (hst : readFile buildFuel stod text = .ok st)
    (hH : hamiltonianType buildFuel stod text = .ok H) (hN : H.size < 2 ^ 32)
    (hf : H.size < fuel) {spins : List ℕ} (h : Numbered st bit spins) :
    computeEnergy fuel { N_ := H.size, H_ := H, spins_ := spins }
      = .ok (fileEnergy stod text bit) := by
  have hreads := (readFile_reads buildFuel stod text).of_ok hst
  obtain ⟨hsize, hI⟩ := (hamiltonianType_built buildFuel stod text).of_ok hH
  have hN' : (siteNames (couplingLines stod text)).length ≤ 2 ^ 32 := by omega
  have hc : IsConfig H.size spins := by
    refine ⟨by rw [h.length, hreads.size, hsize], fun x hx => ?_⟩
    rw [h.eq_map hreads hN', List.mem_map] at hx
    obtain ⟨y, -, rfl⟩ := hx
    exact hbit y
  have hnodup : ∀ e ∈ edgesOf (couplingLines stod text), e.1.Nodup :=
    fun e he => nodup_of_mem_edgesOf honce hN' he
  rw [computeEnergy_spec hI hc hN hf, sharedEnergy_eq hnodup, energy_edgesOf honce hN' hreads h]

/-- From some fuel on the constructor and `compute_energy` return: a vector holds the bits of
the sites in the constructor's numbering, and its energy is the Ising energy of the file. -/
def ComputesFileEnergy (stod : Str → Option K) (text : Str) (bit : Str → ℕ) : Prop :=
  ∃ bound, ∀ fuel, bound ≤ fuel → ∃ st H spins, readFile fuel stod text = .ok st ∧
    hamiltonianType fuel stod text = .ok H ∧ Numbered st bit spins ∧
    computeEnergy fuel { N_ := H.size, H_ := H, spins_ := spins }
      = .ok (fileEnergy stod text bit)

omit [IsStrictOrderedRing K] in
/-- The loop of `compute_energy` only ends when its counter holds the number of names. -/
theorem siteNames_lt_of_computeEnergy {stod : Str → Option K} {text : Str} {buildFuel fuel : ℕ}
    {H : HamiltonianType K} (hH : hamiltonianType buildFuel stod text = .ok H) {spins : List ℕ}
    {E : K} (hE : computeEnergy fuel { N_ := H.size, H_ := H, spins_ := spins } = .ok E) :
    (siteNames (couplingLines stod text)).length < 2 ^ 32 := by
  have hsize := ((hamiltonianType_built buildFuel stod text).of_ok hH).size
  rw [← hsize]
  exact (computeEnergy_ok hE).1

/-- With fewer than `2 ^ 32` names both the constructor and `compute_energy` return. -/
theorem computesFileEnergy_of_lt {stod : Str → Option K} {text : Str}
    (hnum : AllNumeric stod text) (honce : NoSiteTwice text) {bit : Str → ℕ}
    (hbit : ∀ x, bit x = 0 ∨ bit x = 1)
    (hN : (siteNames (couplingLines stod text)).length < 2 ^ 32) :
    ComputesFileEnergy stod text bit := by
  refine ⟨(siteNames (couplingLines stod text)).length + 1, fun fuel hf => ?_⟩
  have hshort : ∀ l ∈ couplingLines stod text, l.1.length < 2 ^ 32 ∧ l.1.length < fuel := by
    intro l hl
    have hle := length_le_siteNames honce hl
    exact ⟨Nat.lt_of_le_of_lt hle hN, Nat.lt_of_le_of_lt hle hf⟩
  obtain ⟨st, H, hst, hH⟩ := hamiltonianType_returns hnum hshort
  have hreads := (readFile_reads fuel stod text).of_ok hst
  have hsize := ((hamiltonianType_built fuel stod text).of_ok hH).size
  have hspins := exists_numbered hreads (Nat.le_of_lt hN) bit
  exact ⟨st, H, _, hst, hH, hspins,
    hspins.computeEnergy honce hbit hst hH (by omega) (by omega)⟩

/-- **From file text to physical energy.** On a file of numeric lines that repeat no site,
whatever `compute_energy` returns on a vector that holds the bits of the sites in the
constructor's numbering is the Ising energy of the file; and it returns exactly when there
are fewer than `2 ^ 32` names, which the counter of its loop holds. -/
theorem computesFileEnergy_iff {stod : Str → Option K} {text : Str}
    (hnum : AllNumeric stod text) (honce : NoSiteTwice text) (bit : Str → ℕ)
    (hbit : ∀ x, bit x = 0 ∨ bit x = 1) :
    (∀ buildFuel fuel st H spins E, readFile buildFuel stod text = .ok st →
      hamiltonianType buildFuel stod text = .ok H → Numbered st bit spins →
      computeEnergy fuel { N_ := H.size, H_ := H, spins_ := spins } = .ok E →
      E = fileEnergy stod text bit) ∧
    (ComputesFileEnergy stod text bit ↔
      (siteNames (couplingLines stod text)).length < 2 ^ 32) := by
  constructor
  · intro buildFuel fuel st H spins E hst hH hspins hE
    obtain ⟨hN, hf⟩ := computeEnergy_ok hE
    rw [hspins.computeEnergy honce hbit hst hH hN hf] at hE
    exact (Except.ok.inj hE).symm
  · constructor
    · rintro ⟨bound, h⟩
      obtain ⟨st, H, spins, -, hH, -, hE⟩ := h bound (le_refl bound)
      exact siteNames_lt_of_computeEnergy hH hE
    · exact computesFileEnergy_of_lt hnum honce hbit

/-- On the sample file the lines of two and of three sites count, once each: the bit of
site `5` is set, and the energy is `2 * (-1) * 1 + (-1) * (-1) * 1 * (-1)`. -/
theorem computesFileEnergy_iff_sample :
    ComputesFileEnergy stodInteger sampleText (fun x => if x = "5".toList then 1 else 0) ∧
      fileEnergy stodInteger sampleText (fun x => if x = "5".toList then 1 else 0) = -3 := by
  have hnum : AllNumeric stodInteger sampleText := by
    unfold AllNumeric
    decide
  have honce : NoSiteTwice sampleText := by
    unfold NoSiteTwice
    decide
  have hbit : ∀ x : Str, (if x = "5".toList then 1 else 0 : ℕ) = 0
      ∨ (if x = "5".toList then 1 else 0 : ℕ) = 1 := by
    intro x
    split
    · exact Or.inr rfl
    · exact Or.inl rfl
  exact ⟨(computesFileEnergy_iff hnum honce _ hbit).2.mpr (by decide), by decide +kernel⟩

/-! ## A file with too many names -/

/-- The line with the site `i` and coupling `1`. -/
def fieldLine (i : ℕ) : Str := Nat.toDigits 10 i ++ [' ', '1']

/-- The text of the lines of the sites below `n`. -/
def fieldText (n : ℕ) : Str := ((List.range n).map fieldLine).flatMap fun l => l ++ ['\n']

theorem notMem_fieldLine {c : Char} (hd : c.isDigit = false) (hb : c ≠ ' ') (i : ℕ) :
    c ∉ fieldLine i := by
  intro hc
  rcases List.mem_append.mp hc with hc | hc
  · rw [Nat.isDigit_of_mem_toDigits (by omega) (Nat.le_refl 10) hc] at hd
    cases hd
  · rcases List.mem_cons.mp hc with hc | hc
    · exact hb hc
    · rw [List.mem_singleton.mp hc] at hd
      exact absurd hd (by decide)

theorem tokens_fieldLine (i : ℕ) : tokens (fieldLine i) = [Nat.toDigits 10 i, ['1']] := by
  rw [tokens, fieldLine, getlines_append_cons,
    getlines_concat_of_notMem (blank_not_mem_toDigits i)]
  rfl

theorem getlines_fieldText (n : ℕ) :
    getlines '\n' (fieldText n) = (List.range n).map fieldLine := by
  apply getlines_flatMap
  intro l hl
  obtain ⟨i, -, rfl⟩ := List.mem_map.mp hl
  exact notMem_fieldLine (by decide) (by decide) i

theorem admitted_fieldLine (i : ℕ) : admitted (fieldLine i) = true := by
  have hhash := notMem_fieldLine (c := '#') (by decide) (by decide) i
  simp only [admitted, hhash, not_false_eq_true, and_true, decide_eq_true_eq]
  simp [fieldLine]

theorem couplingLines_fieldText (n : ℕ) :
    couplingLines stodInteger (fieldText n)
      = (List.range n).map fun i => ([Nat.toDigits 10 i], 1) := by
  have hone : stodInteger ['1'] = some 1 := by decide
  rw [couplingLines, getlines_fieldText, List.filterMap_map, ← List.filterMap_eq_map]
  apply List.filterMap_congr
  intro i _
  simp [couplingLine, admitted_fieldLine, tokens_fieldLine, hone]

theorem length_siteNames_fieldText (n : ℕ) :
    (siteNames (couplingLines stodInteger (fieldText n))).length = n := by
  have hnames : (couplingLines stodInteger (fieldText n)).flatMap Prod.fst
      = (List.range n).map (Nat.toDigits 10) := by
    rw [couplingLines_fieldText, List.flatMap_map]
    exact List.map_eq_flatMap.symm
  have hnodup : ((List.range n).map (Nat.toDigits 10)).Nodup :=
    List.nodup_range.map fun _ _ => toDigits_inj
  rw [siteNames, hnames]
  have hperm : (keepFirst id ((List.range n).map (Nat.toDigits 10))).Perm
      ((List.range n).map (Nat.toDigits 10)) :=
    (List.perm_ext_iff_of_nodup (nodup_keepFirst_id _) hnodup).mpr fun _ => mem_keepFirst_id
  rw [hperm.length_eq, List.length_map, List.length_range]

/-- With `2 ^ 32` names the constructor returns, and `compute_energy` never does. -/
theorem energy_of_too_many_names :
    AllNumeric stodInteger (fieldText (2 ^ 32)) ∧ NoSiteTwice (fieldText (2 ^ 32)) ∧
    (∃ fuel H, hamiltonianType fuel stodInteger (fieldText (2 ^ 32)) = .ok H) ∧
    (∀ buildFuel fuel H spins E,
      hamiltonianType buildFuel stodInteger (fieldText (2 ^ 32)) = .ok H →
      computeEnergy fuel { N_ := H.size, H_ := H, spins_ := spins } ≠ .ok E) ∧
    ∀ bit, ¬ ComputesFileEnergy stodInteger (fieldText (2 ^ 32)) bit := by
  have hline : ∀ line ∈ getlines '\n' (fieldText (2 ^ 32)), ∃ i, line = fieldLine i := by
    intro line hline
    rw [getlines_fieldText] at hline
    obtain ⟨i, -, rfl⟩ := List.mem_map.mp hline
    exact ⟨i, rfl⟩
  have hnum : AllNumeric stodInteger (fieldText (2 ^ 32)) := by
    intro line hmem _
    obtain ⟨i, rfl⟩ := hline line hmem
    rw [tokens_fieldLine]
    rfl
  have honce : NoSiteTwice (fieldText (2 ^ 32)) := by
    intro line hmem _
    obtain ⟨i, rfl⟩ := hline line hmem
    rw [tokens_fieldLine]
    exact List.nodup_singleton _
  have hshort : ∀ l ∈ couplingLines stodInteger (fieldText (2 ^ 32)),
      l.1.length < 2 ^ 32 ∧ l.1.length < 2 := by
    intro l hl
    rw [couplingLines_fieldText] at hl
    obtain ⟨i, -, rfl⟩ := List.mem_map.mp hl
    exact ⟨by simp, by simp⟩
  have hmany : ∀ buildFuel fuel H spins E,
      hamiltonianType buildFuel stodInteger (fieldText (2 ^ 32)) = .ok H →
      computeEnergy fuel { N_ := H.size, H_ := H, spins_ := spins } ≠ .ok E := by
    intro buildFuel fuel H spins E hH hE
    have hlt := siteNames_lt_of_computeEnergy hH hE
    rw [length_siteNames_fieldText] at hlt
    exact absurd hlt (Nat.lt_irrefl _)
  refine ⟨hnum, honce, ?_, hmany, ?_⟩
  · obtain ⟨-, H, -, hH⟩ := hamiltonianType_returns hnum hshort
    exact ⟨2, H, hH⟩
  · rintro bit ⟨bound, h⟩
    obtain ⟨st, H, spins, -, hH, -, hE⟩ := h bound (le_refl bound)
    exact hmany bound bound H spins _ hH hE

end Chain

end SpinGlass
