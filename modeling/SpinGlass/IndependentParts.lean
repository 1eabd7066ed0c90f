import SpinGlass.Reordering
import SpinGlass.RunLaw
import SpinGlass.Lib.ProductChain

/-!
# IndependentParts — two lattices in one file

Two texts stand one after the other in a file, and no site is named in both.
The constructor then numbers the sites of the first text before those of the
second one, every coupling stays on its side, and the energies add up. As the
sweeps go through the sites by their numbers, and a turn looks at the change of
the energy only, a run on the file is two runs that know nothing of each other.
-/

namespace SpinGlass

open Text CountedLoop MultiSpin KeepFirst RandomStep Metropolis MeasureTheory
open scoped Kronecker

/-! ## The file -/

section File

variable {K : Type} [Field K] [LinearOrder K] {stod : Str → Option K} {text₁ text₂ : Str}

theorem mem_getlines_joined {line : Str} (h : line ∈ getlines '\n' (text₁ ++ '\n' :: text₂)) :
    line ∈ getlines '\n' text₁ ∨ line = [] ∨ line ∈ getlines '\n' text₂ := by
  rw [getlines_append_cons, List.mem_append] at h
  rcases h with h | h
  · rcases getlines_concat_self '\n' text₁ with heq | heq
    · exact Or.inl (heq ▸ h)
    · rw [heq, List.mem_append, List.mem_singleton] at h
      exact h.imp_right Or.inl
  · exact Or.inr (Or.inr h)

theorem couplingLines_joined (stod : Str → Option K) (text₁ text₂ : Str) :
    couplingLines stod (text₁ ++ '\n' :: text₂)
      = couplingLines stod text₁ ++ couplingLines stod text₂ := by
  have hfirst : (getlines '\n' (text₁ ++ ['\n'])).filterMap (couplingLine stod)
      = couplingLines stod text₁ := by
    rcases getlines_concat_self '\n' text₁ with heq | heq
    · rw [heq, couplingLines]
    · -- a line with nothing on it is not admitted
      have hempty : [[]].filterMap (couplingLine stod) = [] := rfl
      rw [heq, List.filterMap_append, hempty, List.append_nil, couplingLines]
  rw [couplingLines, getlines_append_cons, List.filterMap_append, hfirst]
  rfl

theorem NoSiteTwice.joined (h₁ : NoSiteTwice text₁) (h₂ : NoSiteTwice text₂) :
    NoSiteTwice (text₁ ++ '\n' :: text₂) := by
  intro line hline hadm
  rcases mem_getlines_joined hline with h | rfl | h
  · exact h₁ line h hadm
  · cases hadm
  · exact h₂ line h hadm

variable (hapart : ∀ x ∈ siteNames (couplingLines stod text₁),
  x ∉ siteNames (couplingLines stod text₂))

include hapart

/-- **The sites of the first text come first.** -/
theorem siteNames_joined :
    siteNames (couplingLines stod (text₁ ++ '\n' :: text₂))
      = siteNames (couplingLines stod text₁) ++ siteNames (couplingLines stod text₂) := by
  rw [couplingLines_joined, siteNames, List.flatMap_append, keepFirst_append_eq]
  congr 1
  apply List.filter_eq_self.mpr
  intro x hx
  simp only [List.map_id, id, decide_eq_true_eq]
  intro hx₁
  exact hapart x (mem_keepFirst_id.mpr hx₁) hx

/-- **Every kept line is on its side**, but for lines that name no site. -/
theorem sum_share_joined (σ : Str → K) :
    ((distinctLines stod (text₁ ++ '\n' :: text₂)).map (share σ)).sum
      = ((distinctLines stod text₁).map (share σ)).sum
        + ((distinctLines stod text₂).map (share σ)).sum := by
  have hdrop : ∀ (p : List Str × K → Bool) (ls : List (List Str × K)),
      (∀ l ∈ ls, p l = false → share σ l = 0) →
      ((ls.filter p).map (share σ)).sum = (ls.map (share σ)).sum := by
    intro p ls hzero
    induction ls with
    | nil => rfl
    | cons l ls ih =>
        have hls := ih fun l' hl' => hzero l' (List.mem_cons_of_mem _ hl')
        cases hp : p l with
        | true => rw [List.filter_cons_of_pos hp, List.map_cons, List.sum_cons, hls,
            List.map_cons, List.sum_cons]
        | false => rw [List.filter_cons_of_neg (by simp [hp]), hls, List.map_cons, List.sum_cons,
            hzero l List.mem_cons_self hp, zero_add]
  rw [distinctLines, couplingLines_joined, keepFirst_append_eq, List.map_append, List.sum_append,
    hdrop _ _ ?_, distinctLines, distinctLines]
  intro l hl hkey
  -- the same names on a line of the first text
  rw [decide_eq_false_iff_not, not_not] at hkey
  obtain ⟨l', hl', heq⟩ := List.mem_map.mp hkey
  have hperm : l'.1.Perm l.1 := Multiset.coe_eq_coe.mp heq
  have hnone : l.1 = [] := by
    rw [List.eq_nil_iff_forall_not_mem]
    intro x hx
    exact hapart x (mem_siteNames.mpr ⟨l', hl', hperm.mem_iff.mpr hx⟩)
      (mem_siteNames.mpr ⟨l, mem_of_mem_keepFirst hl, hx⟩)
  rw [share, hnone, List.dedup_nil, List.length_nil, Nat.cast_zero, zero_mul]

end File

/-! ## The energies -/

section Energies

variable {K : Type} [Field K] [LinearOrder K] [IsStrictOrderedRing K] {stod : Str → Option K}

/-- The bits of the names give the energy of a configuration. -/
theorem energyOf_named {text : Str} {buildFuel : ℕ} {H : HamiltonianType K}
    (hbuild : hamiltonianType buildFuel stod text = .ok H) (hN : H.size < 2 ^ 32)
    {bit : Str → ℕ} (hbit : ∀ x, bit x = 0 ∨ bit x = 1) {s : Bits H.size}
    (hs : s.spins = (siteNames (couplingLines stod text)).map bit) :
    energyOf (edgesOf (couplingLines stod text)) s
      = ((distinctLines stod text).map (share fun x => ofBit (bit x))).sum := by
  obtain ⟨-, hI⟩ := (hamiltonianType_built buildFuel stod text).of_ok hbuild
  have hfuel : H.size < H.size + 1 := Nat.lt_succ_self _
  have hnamed := computeEnergy_named hbuild hbit hN hfuel
  have hbits : computeEnergy (H.size + 1) (onBits H s)
      = .ok (energyOf (edgesOf (couplingLines stod text)) s) :=
    computeEnergy_spec hI s.isConfig hN hfuel
  have hsame : named stod text H bit = onBits H s := by rw [named, onBits, hs]
  rw [hsame, hbits] at hnamed
  exact Except.ok.inj hnamed

/-- A vector, by the names of its places. -/
theorem map_getD_idxOf {names : List Str} (hn : names.Nodup) {spins : List ℕ}
    (hlength : spins.length = names.length) :
    (names.map fun x => spins.getD (names.idxOf x) 0) = spins := by
  apply List.ext_getElem (by rw [List.length_map, hlength])
  intro i hi hi'
  have hin : i < names.length := by rwa [hlength] at hi'
  rw [List.getElem_map, hn.idxOf_getElem i hin, List.getD_eq_getElem _ _ hi']

variable {text₁ text₂ : Str} {fuel₁ fuel₂ fuel : ℕ} {H₁ H₂ H : HamiltonianType K}
  (hbuild₁ : hamiltonianType fuel₁ stod text₁ = .ok H₁)
  (hbuild₂ : hamiltonianType fuel₂ stod text₂ = .ok H₂)
  (hbuild : hamiltonianType fuel stod (text₁ ++ '\n' :: text₂) = .ok H)
  (hapart : ∀ x ∈ siteNames (couplingLines stod text₁),
    x ∉ siteNames (couplingLines stod text₂))

include hbuild₁ hbuild₂ hbuild hapart

omit [IsStrictOrderedRing K] in
theorem size_joined : H.size = H₁.size + H₂.size := by
  rw [((hamiltonianType_built fuel₁ stod text₁).of_ok hbuild₁).size,
    ((hamiltonianType_built fuel₂ stod text₂).of_ok hbuild₂).size,
    ((hamiltonianType_built fuel stod _).of_ok hbuild).size, siteNames_joined hapart,
    List.length_append]

/-- **The energies add up.** -/
theorem energyOf_joined (hN : H.size < 2 ^ 32) {t₁ : Bits H₁.size} {t₂ : Bits H₂.size}
    {t : Bits H.size} (ht : t.spins = t₁.spins ++ t₂.spins) :
    energyOf (edgesOf (couplingLines stod (text₁ ++ '\n' :: text₂))) t
      = energyOf (edgesOf (couplingLines stod text₁)) t₁
        + energyOf (edgesOf (couplingLines stod text₂)) t₂ := by
  have hsize := size_joined hbuild₁ hbuild₂ hbuild hapart
  have hsize₁ := ((hamiltonianType_built fuel₁ stod text₁).of_ok hbuild₁).size
  have hsize₂ := ((hamiltonianType_built fuel₂ stod text₂).of_ok hbuild₂).size
  obtain ⟨names₁, hnames₁⟩ : ∃ l, l = siteNames (couplingLines stod text₁) := ⟨_, rfl⟩
  obtain ⟨names₂, hnames₂⟩ : ∃ l, l = siteNames (couplingLines stod text₂) := ⟨_, rfl⟩
  -- the bit of every name, on its side
  let bit : Str → ℕ := fun x => if x ∈ names₁ then t₁.spins.getD (names₁.idxOf x) 0
    else t₂.spins.getD (names₂.idxOf x) 0
  have hbit : ∀ x, bit x = 0 ∨ bit x = 1 := by
    intro x
    show (if x ∈ names₁ then _ else _) = 0 ∨ (if x ∈ names₁ then _ else _) = 1
    split
    · exact t₁.isConfig.getD _
    · exact t₂.isConfig.getD _
  have hspins₁ : t₁.spins = names₁.map bit := by
    have hmap : names₁.map bit = names₁.map fun x => t₁.spins.getD (names₁.idxOf x) 0 :=
      List.map_congr_left fun x hx => if_pos hx
    rw [hmap, hnames₁, map_getD_idxOf (nodup_siteNames _) (t₁.isConfig.1.trans hsize₁)]
  have hspins₂ : t₂.spins = names₂.map bit := by
    have hmap : names₂.map bit = names₂.map fun x => t₂.spins.getD (names₂.idxOf x) 0 := by
      apply List.map_congr_left
      intro x hx
      exact if_neg fun hx₁ => hapart x (hnames₁ ▸ hx₁) (hnames₂ ▸ hx)
    rw [hmap, hnames₂, map_getD_idxOf (nodup_siteNames _) (t₂.isConfig.1.trans hsize₂)]
  have hspins : t.spins
      = (siteNames (couplingLines stod (text₁ ++ '\n' :: text₂))).map bit := by
    rw [ht, hspins₁, hspins₂, siteNames_joined hapart, List.map_append, hnames₁, hnames₂]
  rw [energyOf_named hbuild hN hbit hspins,
    energyOf_named hbuild₁ (by omega) hbit (hspins₁.trans (by rw [hnames₁])),
    energyOf_named hbuild₂ (by omega) hbit (hspins₂.trans (by rw [hnames₂])),
    sum_share_joined hapart]

end Energies

/-! ## The chain -/

section Chain

variable {N₁ N₂ : ℕ}

theorem Bits.spins_append (t₁ : Bits N₁) (t₂ : Bits N₂) :
    Bits.spins (Fin.append t₁ t₂) = t₁.spins ++ t₂.spins := by
  rw [Bits.spins, List.ofFn_add]
  congr 1
  · exact congrArg List.ofFn (funext fun i => congrArg Fin.val (Fin.append_left' t₁ t₂ i))
  · exact congrArg List.ofFn (funext fun i => congrArg Fin.val (Fin.append_right t₁ t₂ i))

theorem Bits.spins_cast (h : N₁ = N₂) (t : Bits N₂) :
    Bits.spins (fun i => t (Fin.cast h i)) = t.spins := by
  subst h
  rfl

theorem castAdd_ne_natAdd (i : Fin N₁) (j : Fin N₂) : Fin.castAdd N₂ i ≠ Fin.natAdd N₁ j := by
  apply Fin.ne_of_val_ne
  rw [Fin.val_castAdd, Fin.val_natAdd]
  omega

theorem Bits.flip_append_left (t₁ : Bits N₁) (t₂ : Bits N₂) (i : Fin N₁) :
    Bits.flip (Fin.castAdd N₂ i) (Fin.append t₁ t₂) = Fin.append (t₁.flip i) t₂ := by
  funext a
  induction a using Fin.addCases with
  | left a => simp [Bits.flip, Function.update_apply]
  | right a => simp [Bits.flip, (castAdd_ne_natAdd i a).symm]

theorem Bits.flip_append_right (t₁ : Bits N₁) (t₂ : Bits N₂) (i : Fin N₂) :
    Bits.flip (Fin.natAdd N₁ i) (Fin.append t₁ t₂) = Fin.append t₁ (t₂.flip i) := by
  funext a
  induction a using Fin.addCases with
  | left a => simp [Bits.flip, castAdd_ne_natAdd a i]
  | right a => simp [Bits.flip, Function.update_apply]

theorem finRange_append (N₁ N₂ : ℕ) :
    List.finRange (N₁ + N₂)
      = (List.finRange N₁).map (Fin.castAdd N₂) ++ (List.finRange N₂).map (Fin.natAdd N₁) := by
  rw [← List.ofFn_id, List.ofFn_add, ← List.ofFn_eq_map, ← List.ofFn_eq_map]
  rfl

variable {edges edges₁ edges₂ : List (EdgeType ℝ)}
  (hE : ∀ (t₁ : Bits N₁) (t₂ : Bits N₂),
    energyOf edges (Fin.append t₁ t₂) = energyOf edges₁ t₁ + energyOf edges₂ t₂)

include hE

/-- A sweep on the file is a sweep on each side. -/
theorem sweepMatrix_joined (exp : ℝ → ℝ) (beta : Option ℝ) :
    (sweepMatrix exp edges (N₁ + N₂) beta).submatrix (Fin.appendEquiv N₁ N₂)
        (Fin.appendEquiv N₁ N₂)
      = sweepMatrix exp edges₁ N₁ beta ⊗ₖ sweepMatrix exp edges₂ N₂ beta := by
  have hsum : ∀ p : Bits N₁ × Bits N₂, energyOf edges (Fin.appendEquiv N₁ N₂ p)
      = energyOf edges₁ p.1 + energyOf edges₂ p.2 := fun p => hE p.1 p.2
  have hfst : ∀ i : Fin N₁, (turnMatrix exp edges beta (Fin.castAdd N₂ i)).submatrix
      (Fin.appendEquiv N₁ N₂) (Fin.appendEquiv N₁ N₂)
      = turnMatrix exp edges₁ beta i ⊗ₖ (1 : Matrix (Bits N₂) (Bits N₂) ℝ) := by
    intro i
    rw [turnMatrix, turnMatrix, ← ruled_fst hsum]
    exact ruled_submatrix _ (fun p => Bits.flip_append_left p.1 p.2 i) fun _ => rfl
  have hsnd : ∀ j : Fin N₂, (turnMatrix exp edges beta (Fin.natAdd N₁ j)).submatrix
      (Fin.appendEquiv N₁ N₂) (Fin.appendEquiv N₁ N₂)
      = (1 : Matrix (Bits N₁) (Bits N₁) ℝ) ⊗ₖ turnMatrix exp edges₂ beta j := by
    intro j
    rw [turnMatrix, turnMatrix, ← ruled_snd hsum]
    exact ruled_submatrix _ (fun p => Bits.flip_append_right p.1 p.2 j) fun _ => rfl
  have hleft : (((List.finRange N₁).map (turnMatrix exp edges beta ∘ Fin.castAdd N₂)).prod).submatrix
      (Fin.appendEquiv N₁ N₂) (Fin.appendEquiv N₁ N₂) = _ := submatrix_prod _ hfst _
  have hright : (((List.finRange N₂).map (turnMatrix exp edges beta ∘ Fin.natAdd N₁)).prod).submatrix
      (Fin.appendEquiv N₁ N₂) (Fin.appendEquiv N₁ N₂) = _ := submatrix_prod _ hsnd _
  rw [sweepMatrix, finRange_append, List.map_append, List.prod_append, List.map_map, List.map_map,
    ← Matrix.submatrix_mul_equiv _ _ _ (Fin.appendEquiv N₁ N₂) _, hleft, hright, prod_parts,
    sweepMatrix, sweepMatrix]

/-- **The law of a run on the file is the product of the laws on its sides.** -/
theorem annealedLaw_joined (exp : ℝ → ℝ) (beta : ℕ → Option ℝ) (Ns : ℕ) (t₁ : Bits N₁)
    (t₂ : Bits N₂) :
    annealedLaw exp edges (N₁ + N₂) beta Ns (Fin.append t₁ t₂)
      = annealedLaw exp edges₁ N₁ beta Ns t₁ * annealedLaw exp edges₂ N₂ beta Ns t₂ := by
  have hprod : (((List.range Ns).map fun k => sweepMatrix exp edges (N₁ + N₂) (beta k)).prod).submatrix
      (Fin.appendEquiv N₁ N₂) (Fin.appendEquiv N₁ N₂)
      = ((List.range Ns).map fun k => sweepMatrix exp edges₁ N₁ (beta k)).prod
        ⊗ₖ ((List.range Ns).map fun k => sweepMatrix exp edges₂ N₂ (beta k)).prod := by
    rw [← prod_kronecker]
    exact submatrix_prod _ (fun k => sweepMatrix_joined hE exp (beta k)) (List.range Ns)
  rw [annealedLaw, annealedLaw, annealedLaw, ← vecMul_kronecker _ _ _ _ (t₁, t₂), ← hprod,
    Matrix.submatrix_vecMul_equiv]
  simp only [← pow_add]
  rfl

end Chain

/-! ## Two runs in one -/

/-- **A run on two lattices that share no site is two independent runs.** On a file in which
a second text follows a first one, with no site name in both and no line that repeats a
site: the Hamiltonian has the sites of the first text and then those of the second;
`compute_energy` is the sum of the energies of the two sides; and for every schedule and
number of sweeps, `run` hands back a pair of configurations with the product of the
probabilities that it hands back the one on the first Hamiltonian and the other on the
second. -/
theorem run_law_of_parts {stod : Str → Option ℝ} {text₁ text₂ : Str} {fuel₁ fuel₂ buildFuel : ℕ}
    {H₁ H₂ H : HamiltonianType ℝ} (hbuild₁ : hamiltonianType fuel₁ stod text₁ = .ok H₁)
    (hbuild₂ : hamiltonianType fuel₂ stod text₂ = .ok H₂)
    (hbuild : hamiltonianType buildFuel stod (text₁ ++ '\n' :: text₂) = .ok H)
    (hapart : ∀ x ∈ siteNames (couplingLines stod text₁), x ∉ siteNames (couplingLines stod text₂))
    (honce₁ : NoSiteTwice text₁) (honce₂ : NoSiteTwice text₂) {lib : Numerics ℝ (ℕ → ℝ)}
    (hdraws : lib.realnums = nextDraw) (hcoin : FairCoin lib.binaries) (hexp : IsExp lib.exp)
    (beta : ℕ → Option ℝ) {fuel Ns : ℕ} (hN : H.size < 2 ^ 32) (hf : H.size < fuel)
    (hNs : Ns < 2 ^ 32) (hfs : Ns < fuel) (seed : ℕ) :
    H.size = H₁.size + H₂.size ∧
    ∀ (t₁ : Bits H₁.size) (t₂ : Bits H₂.size) (t : Bits H.size), t.spins = t₁.spins ++ t₂.spins →
      (∃ E₁ E₂, computeEnergy fuel (onBits H₁ t₁) = .ok E₁ ∧
        computeEnergy fuel (onBits H₂ t₂) = .ok E₂ ∧
        computeEnergy fuel (onBits H t) = .ok (E₁ + E₂)) ∧
      runProb fuel lib beta H Ns seed t
        = runProb fuel lib beta H₁ Ns seed t₁ * runProb fuel lib beta H₂ Ns seed t₂ := by
  have hsize := size_joined hbuild₁ hbuild₂ hbuild hapart
  obtain ⟨hsize₁, hI₁⟩ := (hamiltonianType_built fuel₁ stod text₁).of_ok hbuild₁
  obtain ⟨hsize₂, hI₂⟩ := (hamiltonianType_built fuel₂ stod text₂).of_ok hbuild₂
  obtain ⟨hsize', hI⟩ := (hamiltonianType_built buildFuel stod _).of_ok hbuild
  have hn₁ : ∀ e ∈ edgesOf (couplingLines stod text₁), e.1.Nodup := fun e he =>
    nodup_of_mem_edgesOf honce₁ (by omega) he
  have hn₂ : ∀ e ∈ edgesOf (couplingLines stod text₂), e.1.Nodup := fun e he =>
    nodup_of_mem_edgesOf honce₂ (by omega) he
  have hn : ∀ e ∈ edgesOf (couplingLines stod (text₁ ++ '\n' :: text₂)), e.1.Nodup := fun e he =>
    nodup_of_mem_edgesOf (honce₁.joined honce₂) (by omega) he
  have hadd : ∀ (t₁ : Bits H₁.size) (t₂ : Bits H₂.size),
      energyOf (edgesOf (couplingLines stod (text₁ ++ '\n' :: text₂))) (Fin.append t₁ t₂)
        = energyOf (edgesOf (couplingLines stod text₁)) t₁
          + energyOf (edgesOf (couplingLines stod text₂)) t₂ := by
    intro t₁ t₂
    have hcast := Bits.spins_cast hsize (Fin.append t₁ t₂)
    have h := energyOf_joined hbuild₁ hbuild₂ hbuild hapart hN
      (hcast.trans (Bits.spins_append t₁ t₂))
    rw [energyOf, hcast] at h
    exact h
  refine ⟨hsize, ?_⟩
  intro t₁ t₂ t ht
  constructor
  · refine ⟨_, _, computeEnergy_spec hI₁ t₁.isConfig (by omega) (by omega),
      computeEnergy_spec hI₂ t₂.isConfig (by omega) (by omega), ?_⟩
    have henergy : computeEnergy fuel (onBits H t)
        = .ok (energyOf (edgesOf (couplingLines stod (text₁ ++ '\n' :: text₂))) t) :=
      computeEnergy_spec hI t.isConfig hN hf
    rw [henergy, energyOf_joined hbuild₁ hbuild₂ hbuild hapart hN ht]
    rfl
  · rw [runProb_eq hI hn hdraws hN hf beta hcoin hexp hNs hfs,
      runProb_eq hI₁ hn₁ hdraws (by omega) (by omega) beta hcoin hexp hNs hfs,
      runProb_eq hI₂ hn₂ hdraws (by omega) (by omega) beta hcoin hexp hNs hfs,
      annealedLaw_of_spins hsize (ht.trans (Bits.spins_append t₁ t₂).symm),
      annealedLaw_joined hadd]

/-- Three sites in a row. -/
def rowText : Str := "5 6 1\n6 7 -1\n".toList

/-- The ring and the row in one file. -/
theorem run_law_of_parts_sample :
    ∃ H₁ H₂ H, hamiltonianType 6 stodReal ringText = .ok H₁ ∧
      hamiltonianType 6 stodReal rowText = .ok H₂ ∧
      hamiltonianType 6 stodReal (ringText ++ '\n' :: rowText) = .ok H ∧
      ∀ (t₁ : Bits H₁.size) (t₂ : Bits H₂.size) (t : Bits H.size),
        t.spins = t₁.spins ++ t₂.spins →
        runProb 8 coinLib (fun k => some k) H 3 7 t
          = runProb 8 coinLib (fun k => some k) H₁ 3 7 t₁
            * runProb 8 coinLib (fun k => some k) H₂ 3 7 t₂ := by
  have hrow : ∀ line ∈ getlines '\n' rowText, admitted line = true →
      (tokens line).dropLast.length < 6 ∧ ∀ x ∈ (tokens line).dropLast,
        x ∈ ["5", "6", "7"].map String.toList := by decide
  have hboth : ∀ line ∈ getlines '\n' (ringText ++ '\n' :: rowText), admitted line = true →
      (tokens line).dropLast.length < 6 ∧ ∀ x ∈ (tokens line).dropLast,
        x ∈ ["1", "2", "3", "4", "5", "6", "7"].map String.toList := by decide
  have honce : NoSiteTwice rowText := by
    unfold NoSiteTwice
    decide
  have hapart : ∀ x ∈ siteNames (couplingLines stodReal ringText),
      x ∉ siteNames (couplingLines stodReal rowText) := by
    intro x hx hx'
    have hnames : ∀ y ∈ ["1", "2", "3", "4"].map String.toList,
        y ∉ ["5", "6", "7"].map String.toList := by decide
    exact hnames x (siteNames_subset ring_lines stodReal hx) (siteNames_subset hrow stodReal hx')
  obtain ⟨H₁, hH₁, -⟩ := exists_ringReal
  obtain ⟨H₂, hH₂, -⟩ := exists_built hrow (by unfold AllNumeric stodReal; decide)
  obtain ⟨H, hH, hsize⟩ := exists_built hboth (by unfold AllNumeric stodReal; decide)
  have hseven : H.size ≤ 7 := hsize
  have hlaw := run_law_of_parts hH₁ hH₂ hH hapart noSiteTwice_ring honce rfl fairCoin_halfCoin
    isExp_coinLib (fun k => some k) (by omega) (by omega : H.size < 8) (by decide : 3 < 2 ^ 32)
    (by decide) 7
  exact ⟨H₁, H₂, H, hH₁, hH₂, hH, fun t₁ t₂ t ht => (hlaw.2 t₁ t₂ t ht).2⟩

end SpinGlass
