import SpinGlass.IntegerEnergies
import SpinGlass.RepeatedSites

/-!
# Reordering — the order of the file is only a matter of numbering

The constructor numbers the sites as they appear, and keeps the first of the
lines with the same sites. Two files whose kept lines are the same, up to the
order of the lines and of the names on each, therefore differ in the numbers of
the sites and in nothing else: for every assignment of bits to the names,
`compute_energy` and `delta_energy` give the same.
-/

namespace SpinGlass

open Text CountedLoop MultiSpin KeepFirst

/-! ## Edges, up to their order -/

section Edges

variable {ι κ K : Type} [DecidableEq ι] [DecidableEq κ] [Field K]

/-- What an edge adds to `compute_energy`. -/
def share (σ : ι → K) (l : List ι × K) : K :=
  (l.1.dedup.length : K) * (l.2 * corr σ l.1 / (l.1.length : K))

/-- An edge without the order of its sites. -/
def unordered (l : List ι × K) : Multiset ι × K := (l.1, l.2)

theorem share_eq (σ : ι → K) (l : List ι × K) :
    share σ l = (Multiset.card (unordered l).1.dedup : K)
      * ((unordered l).2 * ((unordered l).1.map σ).prod / (Multiset.card (unordered l).1 : K)) := by
  simp [share, unordered, corr]

/-- The same edges in another order have the same shares. -/
theorem sum_share_perm {ls ls' : List (List ι × K)}
    (h : (ls.map unordered).Perm (ls'.map unordered)) (σ : ι → K) :
    (ls.map (share σ)).sum = (ls'.map (share σ)).sum := by
  have hsum : ∀ ms : List (List ι × K), (ms.map (share σ)).sum
      = ((ms.map unordered).map fun m => (Multiset.card m.1.dedup : K)
        * (m.2 * (m.1.map σ).prod / (Multiset.card m.1 : K))).sum := by
    intro ms
    rw [List.map_map]
    exact congrArg List.sum (List.map_congr_left fun l _ => share_eq σ l)
  rw [hsum, hsum, (h.map _).sum_eq]

/-- And the same changes. -/
theorem change_perm {ls ls' : List (List ι × K)}
    (h : (ls.map unordered).Perm (ls'.map unordered)) (σ : ι → K) (x : ι) :
    change σ ls x = change σ ls' x := by
  have hsum : ∀ ms : List (List ι × K), change σ ms x
      = (((ms.map unordered).filter fun m => x ∈ m.1).map fun m =>
        -2 * (m.2 * (m.1.map σ).prod)).sum := by
    intro ms
    rw [List.filter_map, List.map_map, change]
    simp [unordered, corr, Function.comp_def]
  rw [hsum, hsum, ((h.filter _).map _).sum_eq]

namespace Renumbers

variable {f : ι → κ} {g : List ι × K → List κ × K} {ls : List (List ι × K)}
  (h : Renumbers f g ls) {σ : ι → K} {σ' : κ → K} (hσ : ∀ l ∈ ls, ∀ x ∈ l.1, σ' (f x) = σ x)

include h

omit [Field K] in
theorem length_dedup {l : List ι × K} (hl : l ∈ ls) : (g l).1.dedup.length = l.1.dedup.length := by
  have hset : (g l).1.toFinset = l.1.toFinset.image f := by
    ext b
    simp only [List.mem_toFinset, (h.perm l hl).mem_iff, List.mem_map, Finset.mem_image]
  rw [← List.card_toFinset, ← List.card_toFinset, hset]
  apply Finset.card_image_of_injOn
  intro y hy z hz hf
  exact h.inj l hl l hl y (List.mem_toFinset.mp hy) z (List.mem_toFinset.mp hz) hf

include hσ

omit [DecidableEq ι] [DecidableEq κ] in
theorem corr_eq {l : List ι × K} (hl : l ∈ ls) : corr σ' (g l).1 = corr σ l.1 := by
  rw [corr_perm (h.perm l hl), corr_map, corr, List.map_congr_left (hσ l hl)]

/-- Numbers in the place of names leave the shares as they are. -/
theorem sum_share : ((ls.map g).map (share σ')).sum = (ls.map (share σ)).sum := by
  rw [List.map_map]
  congr 1
  apply List.map_congr_left
  intro l hl
  have hlength : (g l).1.length = l.1.length := by
    rw [(h.perm l hl).length_eq, List.length_map]
  rw [Function.comp_apply, share, share, h.length_dedup hl, h.coupling l hl, h.corr_eq hσ hl,
    hlength]

/-- And the changes. -/
theorem change_eq {l : List ι × K} (hl : l ∈ ls) {x : ι}
    (hx : x ∈ l.1) : change σ' (ls.map g) (f x) = change σ ls x := by
  have hfilter : ls.filter ((fun e : List κ × K => decide (f x ∈ e.1)) ∘ g)
      = ls.filter fun e => decide (x ∈ e.1) := by
    apply List.filter_congr
    intro m hm
    simp only [Function.comp_apply, h.mem hm hl hx]
  rw [change, change, List.filter_map, hfilter, List.map_map]
  congr 1
  apply List.map_congr_left
  intro m hm
  have hm : m ∈ ls := List.mem_of_mem_filter hm
  rw [Function.comp_apply, h.coupling m hm, h.corr_eq hσ hm]

end Renumbers

end Edges

/-! ## What the solver computes, by names -/

section Named

variable {K : Type} [Field K] [LinearOrder K] {stod : Str → Option K} {text : Str}

/-- A line that is not kept has its names on one that is. -/
theorem mem_siteNames_iff {x : Str} :
    x ∈ siteNames (couplingLines stod text) ↔ ∃ l ∈ distinctLines stod text, x ∈ l.1 := by
  rw [mem_siteNames]
  constructor
  · rintro ⟨l, hl, hx⟩
    have hkey : (l.1 : Multiset Str)
        ∈ (couplingLines stod text).map fun l : List Str × K => (l.1 : Multiset Str) :=
      List.mem_map_of_mem hl
    obtain ⟨l', hl', heq⟩ := List.mem_map.mp (mem_map_keepFirst.mpr hkey)
    exact ⟨l', hl', (Multiset.coe_eq_coe.mp heq).mem_iff.mpr hx⟩
  · rintro ⟨l, hl, hx⟩
    exact ⟨l, mem_of_mem_keepFirst hl, hx⟩

theorem renumbers_numbered (hN : (siteNames (couplingLines stod text)).length ≤ 2 ^ 32) :
    Renumbers (siteNumber (siteNames (couplingLines stod text)))
      (numbered (siteNames (couplingLines stod text))) (distinctLines stod text) := by
  constructor
  · intro l hl l' hl' x hx y hy hxy
    exact siteNumber_inj hN (mem_siteNames_iff.mpr ⟨l, hl, hx⟩)
      (mem_siteNames_iff.mpr ⟨l', hl', hy⟩) hxy
  · intro l _
    exact List.perm_insertionSort _ _
  · intro l _
    rfl

/-- The object on `H` whose spins have the bits of the names. -/
def named (stod : Str → Option K) (text : Str) (H : HamiltonianType K) (bit : Str → ℕ) :
    SaSolver K :=
  { N_ := H.size, H_ := H, spins_ := (siteNames (couplingLines stod text)).map bit }

variable {bit : Str → ℕ}

theorem spinAt_named (hN : (siteNames (couplingLines stod text)).length ≤ 2 ^ 32) {x : Str}
    (hx : x ∈ siteNames (couplingLines stod text)) :
    spinAt ((siteNames (couplingLines stod text)).map bit)
      (siteNumber (siteNames (couplingLines stod text)) x) = (ofBit (bit x) : K) := by
  have hlt := List.idxOf_lt_length_of_mem hx
  rw [spinAt, siteNumber, Nat.mod_eq_of_lt (by omega),
    List.getD_eq_getElem _ _ (by rw [List.length_map]; exact hlt), List.getElem_map,
    List.getElem_idxOf]

variable {buildFuel : ℕ} {H : HamiltonianType K}
  (hbuild : hamiltonianType buildFuel stod text = .ok H) (hbit : ∀ x, bit x = 0 ∨ bit x = 1)

include hbuild hbit

theorem isConfig_named : IsConfig H.size ((siteNames (couplingLines stod text)).map bit) := by
  obtain ⟨hsize, -⟩ := (hamiltonianType_built buildFuel stod text).of_ok hbuild
  refine ⟨by rw [List.length_map, hsize], fun b hb => ?_⟩
  obtain ⟨x, -, rfl⟩ := List.mem_map.mp hb
  exact hbit x

variable (hN : H.size < 2 ^ 32)

include hN

/-- `compute_energy` adds up the shares of the kept lines. -/
theorem computeEnergy_named [IsStrictOrderedRing K] {fuel : ℕ} (hf : H.size < fuel) :
    computeEnergy fuel (named stod text H bit)
      = .ok (((distinctLines stod text).map (share fun x => ofBit (bit x))).sum) := by
  obtain ⟨hsize, hI⟩ := (hamiltonianType_built buildFuel stod text).of_ok hbuild
  have hN' : (siteNames (couplingLines stod text)).length ≤ 2 ^ 32 := by omega
  have hspins : ∀ l ∈ distinctLines stod text, ∀ x ∈ l.1,
      spinAt ((siteNames (couplingLines stod text)).map bit)
        (siteNumber (siteNames (couplingLines stod text)) x) = (ofBit (bit x) : K) :=
    fun l hl x hx => spinAt_named hN' (mem_siteNames_iff.mpr ⟨l, hl, hx⟩)
  rw [named, computeEnergy_spec hI (isConfig_named hbuild hbit) hN hf, edgesOf_eq hN',
    ← (renumbers_numbered hN').sum_share hspins]
  rfl

/-- `delta_energy` at the number of a name takes away its kept lines, twice. -/
theorem deltaEnergy_named {x : Str} (hx : x ∈ siteNames (couplingLines stod text)) :
    deltaEnergy (named stod text H bit) (siteNumber (siteNames (couplingLines stod text)) x)
      = .ok (change (fun x => ofBit (bit x)) (distinctLines stod text) x) := by
  obtain ⟨hsize, hI⟩ := (hamiltonianType_built buildFuel stod text).of_ok hbuild
  have hN' : (siteNames (couplingLines stod text)).length ≤ 2 ^ 32 := by omega
  have hspins : ∀ l ∈ distinctLines stod text, ∀ x ∈ l.1,
      spinAt ((siteNames (couplingLines stod text)).map bit)
        (siteNumber (siteNames (couplingLines stod text)) x) = (ofBit (bit x) : K) :=
    fun l hl x hx => spinAt_named hN' (mem_siteNames_iff.mpr ⟨l, hl, hx⟩)
  obtain ⟨l, hl, hxl⟩ := mem_siteNames_iff.mp hx
  have hlt : siteNumber (siteNames (couplingLines stod text)) x < H.size := by
    rw [hsize]
    exact siteNumber_lt hx
  rw [named, deltaEnergy_spec hI (isConfig_named hbuild hbit) hlt, edgesOf_eq hN',
    ← (renumbers_numbered hN').change_eq hspins hl hxl]
  rfl

end Named

/-! ## Two files -/

/-- The files keep the same lines, up to the order of the lines and of the names on them. -/
def SameCouplings {K : Type} [Field K] [LinearOrder K] (stod : Str → Option K)
    (text text' : Str) : Prop :=
  ((distinctLines stod text).map unordered).Perm ((distinctLines stod text').map unordered)

/-- **The order of the file does not matter to the energies.** For two files that keep the
same lines up to order: the constructor numbers the same names; and for every bits of the
names `compute_energy` returns the same on both Hamiltonians, and so does `delta_energy` at
the two numbers of every name. -/
theorem reordering_keeps_energies {K : Type} [Field K] [LinearOrder K] [IsStrictOrderedRing K]
    {stod : Str → Option K} {text text' : Str} (hsame : SameCouplings stod text text')
    {buildFuel buildFuel' : ℕ} {H H' : HamiltonianType K}
    (hbuild : hamiltonianType buildFuel stod text = .ok H)
    (hbuild' : hamiltonianType buildFuel' stod text' = .ok H') (hN : H.size < 2 ^ 32) :
    (siteNames (couplingLines stod text)).Perm (siteNames (couplingLines stod text')) ∧
    H'.size = H.size ∧
    ∀ bit : Str → ℕ, (∀ x, bit x = 0 ∨ bit x = 1) →
      (∀ fuel, H.size < fuel → ∃ E, computeEnergy fuel (named stod text H bit) = .ok E ∧
        computeEnergy fuel (named stod text' H' bit) = .ok E) ∧
      ∀ x ∈ siteNames (couplingLines stod text), ∃ dE,
        deltaEnergy (named stod text H bit) (siteNumber (siteNames (couplingLines stod text)) x)
          = .ok dE ∧
        deltaEnergy (named stod text' H' bit)
          (siteNumber (siteNames (couplingLines stod text')) x) = .ok dE := by
  have hmem : ∀ x, x ∈ siteNames (couplingLines stod text)
      ↔ x ∈ siteNames (couplingLines stod text') := by
    have hone : ∀ {u v : Str}, SameCouplings stod u v → ∀ x,
        x ∈ siteNames (couplingLines stod u) → x ∈ siteNames (couplingLines stod v) := by
      intro u v huv x hx
      obtain ⟨l, hl, hxl⟩ := mem_siteNames_iff.mp hx
      obtain ⟨l', hl', heq⟩ := List.mem_map.mp (huv.mem_iff.mp (List.mem_map_of_mem hl))
      have hperm : l'.1.Perm l.1 := Multiset.coe_eq_coe.mp (congrArg Prod.fst heq)
      exact mem_siteNames_iff.mpr ⟨l', hl', hperm.mem_iff.mpr hxl⟩
    exact fun x => ⟨hone hsame x, hone hsame.symm x⟩
  have hnames : (siteNames (couplingLines stod text)).Perm (siteNames (couplingLines stod text')) :=
    (List.perm_ext_iff_of_nodup (nodup_siteNames _) (nodup_siteNames _)).mpr hmem
  have hsize : H'.size = H.size := by
    rw [((hamiltonianType_built buildFuel stod text).of_ok hbuild).size,
      ((hamiltonianType_built buildFuel' stod text').of_ok hbuild').size, hnames.length_eq]
  refine ⟨hnames, hsize, fun bit hbit => ⟨fun fuel hf => ?_, fun x hx => ?_⟩⟩
  · refine ⟨_, computeEnergy_named hbuild hbit hN hf, ?_⟩
    rw [computeEnergy_named hbuild' hbit (by omega) (by omega), sum_share_perm hsame]
  · refine ⟨_, deltaEnergy_named hbuild hbit hN hx, ?_⟩
    rw [deltaEnergy_named hbuild' hbit (by omega) ((hmem x).mp hx), change_perm hsame]

/-- The kept lines of the sample lattice, in another order. -/
def reorderedText : Str := "6 \n7 4 5 -1\n5 7 2\n".toList

theorem reordering_keeps_energies_sample :
    ∃ H', hamiltonianType 4 stodInteger reorderedText = .ok H' ∧ H'.size = 3 ∧
      ∃ E, computeEnergy 4 (named stodInteger sampleText sampleH fun x =>
          if x = "5".toList then 1 else 0) = .ok E ∧
        computeEnergy 4 (named stodInteger reorderedText H' fun x =>
          if x = "5".toList then 1 else 0) = .ok E := by
  have hbuild : hamiltonianType 4 stodInteger sampleText = .ok sampleH := by decide
  have hsame : SameCouplings stodInteger sampleText reorderedText := by
    have hlines : (distinctLines stodInteger sampleText).map unordered
        = [({"5".toList, "7".toList}, 2), ({"4".toList, "5".toList, "7".toList}, -1), (0, 6)] := by
      decide
    have hlines' : (distinctLines stodInteger reorderedText).map unordered
        = [(0, 6), ({"4".toList, "5".toList, "7".toList}, -1), ({"5".toList, "7".toList}, 2)] := by
      decide
    rw [SameCouplings, hlines, hlines']
    exact (List.reverse_perm _).symm
  obtain ⟨H', hH'⟩ : ∃ H', hamiltonianType 4 stodInteger reorderedText = .ok H' := ⟨_, rfl⟩
  have hbit : ∀ x : Str, (if x = "5".toList then 1 else 0) = 0
      ∨ (if x = "5".toList then 1 else 0) = 1 := by
    intro x
    split
    · exact Or.inr rfl
    · exact Or.inl rfl
  obtain ⟨-, hsize, henergies⟩ := reordering_keeps_energies hsame hbuild hH' (by decide)
  exact ⟨H', hH', hsize, (henergies _ hbit).1 4 (by decide)⟩

end SpinGlass
