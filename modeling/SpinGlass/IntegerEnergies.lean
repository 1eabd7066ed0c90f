import SpinGlass.FileEnergy
import SpinGlass.Lib.IntegerCouplings

/-!
# IntegerEnergies — the energies of a run, in the terms of the file

The energy that a run keeps is that of the file, for the bits that the
spins give to the names of its sites (`bitsOf`). So a file with integer
couplings has runs with integer energies, in every state: those of `OnGrid`.
-/

namespace SpinGlass

open CountedLoop MultiSpin KeepFirst Text

variable {K G : Type}

/-- The bits that `spins` holds for the sites `names`. -/
def bitsOf (names : List Str) (spins : List ℕ) (x : Str) : ℕ :=
  spins.getD (siteNumber names x) 0

theorem IsConfig.bitsOf {N : ℕ} {spins : List ℕ} (h : IsConfig N spins) (names : List Str)
    (x : Str) : bitsOf names spins x = 0 ∨ bitsOf names spins x = 1 :=
  h.getD (siteNumber names x)

theorem map_bitsOf {ls : List (List Str × K)} (hN : (siteNames ls).length ≤ 2 ^ 32)
    {spins : List ℕ} (hlength : spins.length = (siteNames ls).length) :
    (siteNames ls).map (bitsOf (siteNames ls) spins) = spins := by
  apply List.ext_getElem
  · rw [List.length_map, hlength]
  · intro i hi hspins
    rw [List.length_map] at hi
    rw [List.getElem_map, bitsOf, siteNumber, (nodup_siteNames ls).idxOf_getElem,
      Nat.mod_eq_of_lt (by omega), List.getD_eq_getElem _ _ hspins]

/-- Every vector of the right length holds bits of the sites. -/
theorem Reads.numbered_bitsOf {st : ReadState K} {ls : List (List Str × K)} (hst : Reads st ls)
    (hN : (siteNames ls).length ≤ 2 ^ 32) {spins : List ℕ}
    (hlength : spins.length = (siteNames ls).length) :
    Numbered st (bitsOf (siteNames ls) spins) spins := by
  have hnumbered := exists_numbered hst hN (bitsOf (siteNames ls) spins)
  rwa [map_bitsOf hN hlength] at hnumbered

variable [Field K] [LinearOrder K]

/-- The energy of the file is that of its counted lines. -/
theorem fileEnergy_eq (stod : Str → Option K) (text : Str) (bit : Str → ℕ) :
    fileEnergy stod text bit = energy (fun x => ofBit (bit x)) (countedLines stod text) := rfl

/-- The couplings that count are the integers `js`. -/
def IntegerCouplings (stod : Str → Option K) (text : Str) (js : List ℤ) : Prop :=
  (countedLines stod text).map Prod.snd = js.map fun j : ℤ => (j : K)

omit [LinearOrder K] in
theorem isIsing_ofBit {bit : Str → ℕ} (hbit : ∀ x, bit x = 0 ∨ bit x = 1) :
    IsIsing fun x => (ofBit (bit x) : K) := by
  intro x
  simp only [ofBit]
  rcases hbit x with h | h
  · exact Or.inr (by rw [h]; ring)
  · exact Or.inl (by rw [h]; ring)

theorem IntegerCouplings.fileEnergy {stod : Str → Option K} {text : Str} {js : List ℤ}
    (hjs : IntegerCouplings stod text js) {bit : Str → ℕ} (hbit : ∀ x, bit x = 0 ∨ bit x = 1) :
    ∃ n : ℤ, fileEnergy stod text bit = (n : K) ∧ OnGrid js n := by
  rw [fileEnergy_eq]
  exact (isIsing_ofBit hbit).energy_onGrid hjs

variable [IsStrictOrderedRing K]

/-- In a state whose books are right, the energy is that of the file. -/
theorem Booked.eq_fileEnergy {stod : Str → Option K} {text : Str} (honce : NoSiteTwice text)
    {buildFuel : ℕ} {H : HamiltonianType K} (hbuild : hamiltonianType buildFuel stod text = .ok H)
    (hN : H.size < 2 ^ 32) {st : Annealing K G}
    (h : Booked H (edgesOf (couplingLines stod text)) st) :
    st.E = fileEnergy stod text
      (bitsOf (siteNames (couplingLines stod text)) st.self.spins_) := by
  obtain ⟨hsize, -⟩ := (hamiltonianType_built buildFuel stod text).of_ok hbuild
  have hN' : (siteNames (couplingLines stod text)).length ≤ 2 ^ 32 := by omega
  have hnodup : ∀ e ∈ edgesOf (couplingLines stod text), e.1.Nodup :=
    fun e he => nodup_of_mem_edgesOf honce hN' he
  obtain ⟨read, hread, -⟩ := bind_eq_ok.mp hbuild
  have hreads := (readFile_reads buildFuel stod text).of_ok hread
  have hnumbered := hreads.numbered_bitsOf hN' (h.onH.config.length.trans hsize)
  rw [h.energy, sharedEnergy_eq hnodup, energy_edgesOf honce hN' hreads hnumbered]

/-- So it is an integer of the grid. -/
theorem Booked.onGrid {stod : Str → Option K} {text : Str} (honce : NoSiteTwice text)
    {buildFuel : ℕ} {H : HamiltonianType K} (hbuild : hamiltonianType buildFuel stod text = .ok H)
    (hN : H.size < 2 ^ 32) {js : List ℤ} (hjs : IntegerCouplings stod text js)
    {st : Annealing K G} (h : Booked H (edgesOf (couplingLines stod text)) st) :
    ∃ n : ℤ, st.E = (n : K) ∧ OnGrid js n := by
  rw [h.eq_fileEnergy honce hbuild hN]
  exact hjs.fileEnergy (h.onH.config.bitsOf _)

/-- The change that is proposed for a spin leads from the grid to the grid. -/
theorem Booked.even_deltaEnergy {stod : Str → Option K} {text : Str} (honce : NoSiteTwice text)
    {buildFuel : ℕ} {H : HamiltonianType K} (hbuild : hamiltonianType buildFuel stod text = .ok H)
    (hN : H.size < 2 ^ 32) {js : List ℤ} (hjs : IntegerCouplings stod text js)
    {st : Annealing K G} (h : Booked H (edgesOf (couplingLines stod text)) st) {i : ℕ}
    (hi : i < H.size) : ∃ k : ℤ, deltaEnergy st.self i = .ok ((k + k : ℤ) : K) := by
  obtain ⟨hsize, hI⟩ := (hamiltonianType_built buildFuel stod text).of_ok hbuild
  have hnodup : ∀ e ∈ edgesOf (couplingLines stod text), e.1.Nodup :=
    fun e he => nodup_of_mem_edgesOf honce (by omega) he
  have hdelta : deltaEnergy st.self i
      = .ok (change (spinAt st.self.spins_) (edgesOf (couplingLines stod text)) i) := by
    rw [h.onH.eq_mk]
    exact deltaEnergy_spec hI h.onH.config hi
  -- the books of the configuration with the spin turned over
  have hturned := h.onH.config.set_xor (K := K) hi
  have hbooked : Booked H (edgesOf (couplingLines stod text))
      { st with
        E := st.E + change (spinAt st.self.spins_) (edgesOf (couplingLines stod text)) i
        self := { st.self with
          spins_ := st.self.spins_.set i (st.self.spins_.getD i 0 ^^^ 1) } } := by
    refine ⟨⟨h.onH.size, h.onH.shared, hturned.1⟩, ?_⟩
    show st.E + _ = _
    rw [hturned.2, sharedEnergy_flipAt hnodup, h.energy]
  obtain ⟨m, hm, hmgrid⟩ := h.onGrid honce hbuild hN hjs
  obtain ⟨n, hn, hngrid⟩ := hbooked.onGrid honce hbuild hN hjs
  obtain ⟨k, hk⟩ := (hmgrid.even.sub hngrid.even)
  have hchange : change (spinAt st.self.spins_) (edgesOf (couplingLines stod text)) i
      = ((n - m : ℤ) : K) := by
    rw [Int.cast_sub, ← hn, ← hm]
    exact (add_sub_cancel_left _ _).symm
  exact ⟨k, by rw [hdelta, hchange, show n - m = k + k from by omega]⟩

/-- A run that returns has kept the books. -/
theorem runWith_booked {stod : Str → Option K} {text : Str} (honce : NoSiteTwice text)
    {buildFuel : ℕ} {H : HamiltonianType K} (hbuild : hamiltonianType buildFuel stod text = .ok H)
    {lib : Numerics K G} {beta : ℕ → Option K} {Ns fuel seed : ℕ} {r : Result K × SaSolver K}
    (hr : runWith fuel lib (saSolver H) beta Ns seed = .ok r) :
    H.size < 2 ^ 32 ∧ ∃ gen : G, Booked H (edgesOf (couplingLines stod text))
      ⟨gen, r.fst.E_, { N_ := H.size, H_ := H, spins_ := r.fst.spins_ }⟩ := by
  obtain ⟨hsize, hI⟩ := (hamiltonianType_built buildFuel stod text).of_ok hbuild
  -- a run that returns has had counters wide enough
  obtain ⟨hN, hf, hNs, hfs⟩ := runWith_ok hr
  have hN : H.size < 2 ^ 32 := hN
  have hnodup : ∀ e ∈ edgesOf (couplingLines stod text), e.1.Nodup :=
    fun e he => nodup_of_mem_edgesOf honce (by omega) he
  have hkeeps := runWith_keeps (G := G) hI
    (P := Booked H (edgesOf (couplingLines stod text))) (fun _ h => h.onH)
    (fun _ hon hE => ⟨hon, hE⟩)
    (fun s _ _ h hi => h.flipped hnodup lib (beta s) hi) hN hf hNs hfs seed
  exact ⟨hN, (hkeeps.of_ok hr).2⟩

/-- The energy of a result is that of the file for its spins. -/
theorem solve_eq_fileEnergy {stod : Str → Option K} {text : Str} (honce : NoSiteTwice text)
    {buildFuel : ℕ} {H : HamiltonianType K} (hbuild : hamiltonianType buildFuel stod text = .ok H)
    {lib : Numerics K G} {beta0 beta1 : K} {Ns fuel seed : ℕ} {r : Result K}
    (hr : solve fuel lib H beta0 beta1 Ns seed = .ok r) :
    IsConfig H.size r.spins_ ∧
      r.E_ = fileEnergy stod text (bitsOf (siteNames (couplingLines stod text)) r.spins_) := by
  obtain ⟨p, hp, hr⟩ := bind_eq_ok.mp hr
  cases hr
  obtain ⟨hN, gen, hbooked⟩ := runWith_booked honce hbuild hp
  exact ⟨hbooked.onH.config, hbooked.eq_fileEnergy honce hbuild hN⟩

/-- **The energies of a run, on a file with integer couplings.** For every schedule and
every generator, the energy of the result is the energy of the file for the spins of the
result, and an integer of the grid; so is the energy in every state that the double loop
visits, from whatever configuration it starts, and there every change that
`delta_energy` proposes is an even integer. -/
theorem run_energies_on_grid {stod : Str → Option K} {text : Str} {buildFuel : ℕ}
    {H : HamiltonianType K} (hbuild : hamiltonianType buildFuel stod text = .ok H)
    (honce : NoSiteTwice text) {js : List ℤ} (hjs : IntegerCouplings stod text js)
    (lib : Numerics K G) (beta : ℕ → Option K) (Ns fuel : ℕ) :
    (∀ seed r, runWith fuel lib (saSolver H) beta Ns seed = .ok r →
      r.fst.E_ = fileEnergy stod text
          (bitsOf (siteNames (couplingLines stod text)) r.fst.spins_) ∧
        ∃ n : ℤ, r.fst.E_ = (n : K) ∧ OnGrid js n) ∧
    (∀ spins gen E, IsConfig H.size spins →
      computeEnergy fuel { N_ := H.size, H_ := H, spins_ := spins } = .ok E →
      ∀ s i st, Visited lib beta Ns
          ⟨gen, E, { N_ := H.size, H_ := H, spins_ := spins }⟩ s i st →
        st.E = fileEnergy stod text
          (bitsOf (siteNames (couplingLines stod text)) st.self.spins_) ∧
        (∃ n : ℤ, st.E = (n : K) ∧ OnGrid js n) ∧
        ∀ a, a < H.size → ∃ k : ℤ, deltaEnergy st.self a = .ok ((k + k : ℤ) : K)) := by
  obtain ⟨hsize, hI⟩ := (hamiltonianType_built buildFuel stod text).of_ok hbuild
  constructor
  · intro seed r hr
    obtain ⟨hN, gen, hbooked⟩ := runWith_booked honce hbuild hr
    exact ⟨hbooked.eq_fileEnergy honce hbuild hN, hbooked.onGrid honce hbuild hN hjs⟩
  · intro spins gen E hc hE s i st hv
    obtain ⟨hN, hf⟩ := computeEnergy_ok hE
    have hN : H.size < 2 ^ 32 := hN
    have hnodup : ∀ e ∈ edgesOf (couplingLines stod text), e.1.Nodup :=
      fun e he => nodup_of_mem_edgesOf honce (by omega) he
    rw [computeEnergy_spec hI hc hN hf] at hE
    have hstart : Booked H (edgesOf (couplingLines stod text))
        ⟨gen, E, { N_ := H.size, H_ := H, spins_ := spins }⟩ :=
      ⟨⟨rfl, rfl, hc⟩, (Except.ok.inj hE).symm⟩
    have hbooked := hv.keeps hI (fun _ h => h.onH)
      (fun beta _ _ h hi => h.flipped hnodup lib beta hi) hstart
    exact ⟨hbooked.eq_fileEnergy honce hbuild hN, hbooked.onGrid honce hbuild hN hjs,
      fun a ha => hbooked.even_deltaEnergy honce hbuild hN hjs ha⟩

/-- The couplings of the sample are `2` and `-1`; its energies are odd and at most `3`. -/
theorem run_energies_on_grid_sample :
    ∃ r, runWith 4 sampleLib (saSolver sampleH) (fun _ => some 1) 3 7 = .ok r ∧
      ∃ n : ℤ, r.fst.E_ = (n : ℚ) ∧ OnGrid [2, -1] n := by
  have hbuild : hamiltonianType 4 stodInteger sampleText = .ok sampleH := by decide
  have honce : NoSiteTwice sampleText := by
    unfold NoSiteTwice
    decide
  have hjs : IntegerCouplings stodInteger sampleText [2, -1] := by
    unfold IntegerCouplings
    decide +kernel
  obtain ⟨-, hI⟩ := (hamiltonianType_built 4 stodInteger sampleText).of_ok hbuild
  have hreturns : ∃ r, runWith 4 sampleLib (saSolver sampleH) (fun _ => some 1) 3 7 = .ok r :=
    exists_runWith hI sampleLib _ (by decide) (by decide) (by decide) (by decide) 7
  obtain ⟨r, hr⟩ := hreturns
  obtain ⟨hresult, -⟩ := run_energies_on_grid hbuild honce hjs sampleLib (fun _ => some 1) 3 4
  exact ⟨r, hr, (hresult 7 r hr).2⟩

end SpinGlass
