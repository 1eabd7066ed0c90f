import SpinGlass.Gauge
import SpinGlass.IntegerEnergies
import SpinGlass.RepeatedSites
import SpinGlass.Lib.Frustration

/-!
# EnergyBounds — when a result is as low as it could be

`bondSum` adds up the sizes of the couplings of a file. Every energy that a run
returns lies between its negative and itself, and a result with the least of
these values carries the proof that it is a ground state: the gauge by its own
configuration leaves no positive coupling in the Hamiltonian. A file without
such a gauge is frustrated, and on it no result is that low.
-/

namespace SpinGlass

open Text CountedLoop MultiSpin KeepFirst

variable {K G : Type} [Field K] [LinearOrder K]

/-- The sum of the sizes of the couplings, over the lines that stay and name a site. -/
def bondSum (stod : Str → Option K) (text : Str) : K :=
  (((distinctLines stod text).filter fun l => l.1 ≠ []).map fun l => |l.2|).sum

/-- No stored coupling is positive. -/
def NoPositive (H : HamiltonianType K) : Prop := ∀ node ∈ H.nodes_, ∀ e ∈ node, e.2 ≤ 0

/-- Every spin turned over. -/
def mirrored (spins : List ℕ) : List ℕ := spins.map (1 - ·)

/-! ## The gauge by a configuration -/

theorem mirrored_config {N : ℕ} {spins : List ℕ} (h : IsConfig N spins) :
    IsConfig N (mirrored spins) := by
  constructor
  · rw [mirrored, List.length_map, h.length]
  · intro x hx
    obtain ⟨y, hy, rfl⟩ := List.mem_map.mp hx
    rcases h.binary y hy with rfl | rfl
    · exact Or.inr rfl
    · exact Or.inl rfl

theorem mirrored_mirrored {N : ℕ} {spins : List ℕ} (h : IsConfig N spins) :
    mirrored (mirrored spins) = spins := by
  rw [mirrored, mirrored, List.map_map]
  refine (List.map_congr_left fun x hx => ?_).trans (List.map_id spins)
  rcases h.binary x hx with rfl | rfl <;> rfl

omit [LinearOrder K] in
/-- The mirror image of a configuration has the signs of its spins. -/
theorem gaugeAt_mirrored {N : ℕ} {spins : List ℕ} (h : IsConfig N spins) {a : ℕ} (ha : a < N) :
    gaugeAt (mirrored spins) a = (spinAt spins a : K) := by
  have hlt : a < spins.length := by rw [h.length]; exact ha
  have hget : (mirrored spins).getD a 0 = 1 - spins.getD a 0 := by
    rw [mirrored, List.getD_eq_getElem _ _ (by rwa [List.length_map]), List.getElem_map,
      List.getD_eq_getElem _ _ hlt]
  rw [gaugeAt, hget, spinAt, ofBit]
  rcases h.getD a with hx | hx <;> rw [hx] <;> norm_num

section Built

variable {H : HamiltonianType K} {edges : List (EdgeType K)} (hI : Incidence H edges)

include hI

/-- What holds at the nodes holds of the edges with a site. -/
theorem Incidence.noPositive_iff :
    NoPositive H ↔ ∀ e ∈ edges.filter fun e => e.1 ≠ [], e.2 ≤ 0 := by
  rw [NoPositive, hI.nodes]
  constructor
  · intro h e he
    obtain ⟨he, hne⟩ := List.mem_filter.mp he
    obtain ⟨a, ha⟩ := List.exists_mem_of_ne_nil e.1 (of_decide_eq_true hne)
    exact h _ (List.mem_map_of_mem (List.mem_range.mpr (hI.sites_lt e he a ha))) e
      (List.mem_filter.mpr ⟨he, decide_eq_true ha⟩)
  · intro h node hnode e he
    obtain ⟨a, -, rfl⟩ := List.mem_map.mp hnode
    obtain ⟨he, ha⟩ := List.mem_filter.mp he
    refine h e (List.mem_filter.mpr ⟨he, ?_⟩)
    exact decide_eq_true (List.ne_nil_of_mem (of_decide_eq_true ha))

/-- The gauge by a configuration leaves no positive coupling where every interaction is
satisfied. -/
theorem Incidence.noPositive_gauge_iff {spins : List ℕ} (hc : IsConfig H.size spins) :
    NoPositive (gaugeHamiltonian (mirrored spins) H)
      ↔ ∀ e ∈ edges.filter fun e => e.1 ≠ [], (gauged (spinAt spins) e).2 ≤ 0 := by
  have hsame : ∀ e ∈ edges, gauged (gaugeAt (mirrored spins)) e = gauged (spinAt spins) e := by
    intro e he
    rw [gauged, gauged, corr_congr fun a ha => gaugeAt_mirrored hc (hI.sites_lt e he a ha)]
  rw [(hI.gauge (mirrored spins)).noPositive_iff, List.filter_map]
  constructor
  · intro h e he
    have := h _ (List.mem_map_of_mem he)
    rwa [hsame e (List.mem_of_mem_filter he)] at this
  · intro h e' he'
    obtain ⟨e, he, rfl⟩ := List.mem_map.mp he'
    rw [hsame e (List.mem_of_mem_filter he)]
    exact h e he

end Built

variable [IsStrictOrderedRing K] {stod : Str → Option K} {text : Str}

omit [IsStrictOrderedRing K] in
/-- The edges have the couplings of the lines that stay. -/
theorem bonds_edgesOf (hN : (siteNames (couplingLines stod text)).length ≤ 2 ^ 32) :
    bonds ((edgesOf (couplingLines stod text)).filter fun e => e.1 ≠ []) = bondSum stod text := by
  rw [edgesOf_eq hN, List.filter_map, bonds, List.map_map, bondSum, distinctLines]
  congr 1
  have hkept : ((fun e : EdgeType K => decide (e.1 ≠ []))
      ∘ numbered (siteNames (couplingLines stod text))) = fun l => decide (l.1 ≠ []) := by
    funext l
    simp only [Function.comp_apply, ne_eq, mem_numbered_nil]
  rw [hkept]
  rfl

section Energies

variable {buildFuel : ℕ} {H : HamiltonianType K}
  (hbuild : hamiltonianType buildFuel stod text = .ok H) (honce : NoSiteTwice text)
  (hN : H.size < 2 ^ 32) {spins : List ℕ} (hc : IsConfig H.size spins)

include hbuild honce hN hc

/-- The energy of a configuration within the bounds, and on the lower one. -/
theorem sharedEnergy_bounds :
    |sharedEnergy (spinAt spins) (edgesOf (couplingLines stod text))| ≤ bondSum stod text ∧
    (sharedEnergy (spinAt spins) (edgesOf (couplingLines stod text)) = -bondSum stod text
      ↔ NoPositive (gaugeHamiltonian (mirrored spins) H)) := by
  obtain ⟨hsize, hI⟩ := (hamiltonianType_built buildFuel stod text).of_ok hbuild
  have hn : ∀ e ∈ edgesOf (couplingLines stod text), e.1.Nodup := fun e he =>
    nodup_of_mem_edgesOf honce (by omega) he
  rw [sharedEnergy_eq hn, ← bonds_edgesOf (by omega), hI.noPositive_gauge_iff hc]
  exact ⟨abs_energy_le hc.isIsing _, energy_eq_neg_bonds_iff hc.isIsing⟩

end Energies

/-- **The bounds of the energies, and the mark of a perfect result.** On the Hamiltonian of a
file whose lines repeat no site: for every schedule and generator, the energy that a run
returns is between minus the sum of the sizes of the couplings and that sum, and it is the
lower bound exactly when the gauge by the mirror image of the returned configuration leaves
no positive coupling. Some configuration has the energy of the lower bound exactly when
some gauge leaves no positive coupling. -/
theorem run_energy_bounds {buildFuel : ℕ} {H : HamiltonianType K}
    (hbuild : hamiltonianType buildFuel stod text = .ok H) (honce : NoSiteTwice text)
    (lib : Numerics K G) (beta : ℕ → Option K) (Ns fuel : ℕ) :
    (∀ seed r, runWith fuel lib (saSolver H) beta Ns seed = .ok r →
      |r.fst.E_| ≤ bondSum stod text ∧
      (r.fst.E_ = -bondSum stod text
        ↔ NoPositive (gaugeHamiltonian (mirrored r.fst.spins_) H))) ∧
    (H.size < 2 ^ 32 → H.size < fuel →
      ((∃ spins, IsConfig H.size spins ∧
          computeEnergy fuel { N_ := H.size, H_ := H, spins_ := spins }
            = .ok (-bondSum stod text))
        ↔ ∃ g, IsConfig H.size g ∧ NoPositive (gaugeHamiltonian g H))) := by
  obtain ⟨hsize, hI⟩ := (hamiltonianType_built buildFuel stod text).of_ok hbuild
  constructor
  · intro seed r hr
    obtain ⟨hN, gen, hbooked⟩ := runWith_booked honce hbuild hr
    have hE : r.fst.E_ = sharedEnergy (spinAt r.fst.spins_) (edgesOf (couplingLines stod text)) :=
      hbooked.energy
    rw [hE]
    exact sharedEnergy_bounds hbuild honce hN hbooked.onH.config
  · intro hN hf
    have henergy : ∀ spins, IsConfig H.size spins →
        (computeEnergy fuel { N_ := H.size, H_ := H, spins_ := spins } = .ok (-bondSum stod text)
          ↔ NoPositive (gaugeHamiltonian (mirrored spins) H)) := by
      intro spins hc
      rw [computeEnergy_spec hI hc hN hf, Except.ok.injEq]
      exact (sharedEnergy_bounds hbuild honce hN hc).2
    constructor
    · rintro ⟨spins, hc, hE⟩
      exact ⟨mirrored spins, mirrored_config hc, (henergy spins hc).mp hE⟩
    · rintro ⟨g, hg, hnone⟩
      refine ⟨mirrored g, mirrored_config hg, (henergy _ (mirrored_config hg)).mpr ?_⟩
      rwa [mirrored_mirrored hg]

/-- The sample lattice is not frustrated: two of its sites turned over leave no positive
coupling. -/
theorem run_energy_bounds_sample :
    (∃ r, runWith 4 sampleLib (saSolver sampleH) (fun _ => some 1) 3 7 = .ok r ∧
      |r.fst.E_| ≤ 3) ∧
    ∃ spins, IsConfig 3 spins ∧
      computeEnergy 4 { N_ := 3, H_ := sampleH, spins_ := spins } = .ok (-3) := by
  have hbuild : hamiltonianType 4 stodInteger sampleText = .ok sampleH := by decide
  have honce : NoSiteTwice sampleText := by
    unfold NoSiteTwice
    decide
  have hsum : bondSum stodInteger sampleText = 3 := by
    unfold bondSum
    decide +kernel
  obtain ⟨-, hI⟩ := (hamiltonianType_built 4 stodInteger sampleText).of_ok hbuild
  have hreturns : ∃ r, runWith 4 sampleLib (saSolver sampleH) (fun _ => some 1) 3 7 = .ok r :=
    exists_runWith hI sampleLib _ (by decide) (by decide) (by decide) (by decide) 7
  obtain ⟨r, hr⟩ := hreturns
  obtain ⟨hbounds, hreached⟩ := run_energy_bounds hbuild honce sampleLib (fun _ => some 1) 3 4
  rw [hsum] at hbounds hreached
  have hgauge : NoPositive (gaugeHamiltonian [1, 0, 1] sampleH) := by
    unfold NoPositive
    decide +kernel
  exact ⟨⟨r, hr, (hbounds 7 r hr).1⟩, (hreached (by decide) (by decide)).mpr
    ⟨[1, 0, 1], ⟨rfl, by decide⟩, hgauge⟩⟩

end SpinGlass
