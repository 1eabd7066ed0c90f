import SpinGlass.Annealing

/-!
# Runs — from the text of the file to the result of a solve

The two statements about whole runs: the energy that a run returns is the
energy of the configuration that it returns, and stays so at every step in
between; and nothing on the way leaves a vector or divides by zero.
-/

namespace SpinGlass

open CountedLoop MultiSpin KeepFirst Text

/-- No line that is read as an edge names a site twice. -/
def NoSiteTwice (text : Str) : Prop :=
  ∀ line ∈ getlines '\n' text, admitted line = true → (tokens line).dropLast.Nodup

variable {K G : Type}

/-! ## Distinct sites -/

/-- Below the wrap of the counter, different names have different numbers. -/
theorem siteNumber_inj {names : List Str} (hN : names.length ≤ 2 ^ 32) {x y : Str}
    (hx : x ∈ names) (hy : y ∈ names) (h : siteNumber names x = siteNumber names y) :
    x = y := by
  have hxl := List.idxOf_lt_length_of_mem hx
  have hyl := List.idxOf_lt_length_of_mem hy
  rw [siteNumber, siteNumber, Nat.mod_eq_of_lt (by omega), Nat.mod_eq_of_lt (by omega)] at h
  exact (List.idxOf_inj hx).mp h

theorem nodup_numbered {ls : List (List Str × K)} (hN : (siteNames ls).length ≤ 2 ^ 32)
    {l : List Str × K} (hl : l ∈ ls) (hn : l.1.Nodup) :
    (numbered (siteNames ls) l).1.Nodup := by
  rw [numbered, (List.perm_insertionSort _ _).nodup_iff]
  refine List.Nodup.map_on (fun x hx y hy hxy => ?_) hn
  exact siteNumber_inj hN (mem_siteNames.mpr ⟨l, hl, hx⟩) (mem_siteNames.mpr ⟨l, hl, hy⟩) hxy

variable [Field K] [LinearOrder K]

/-- A coupling line comes from a line of the file, whose tokens but the last it has. -/
theorem exists_of_mem_couplingLines {stod : Str → Option K} {text : Str}
    {l : List Str × K} (hl : l ∈ couplingLines stod text) :
    ∃ line ∈ getlines '\n' text, admitted line = true ∧ l.1 = (tokens line).dropLast := by
  obtain ⟨line, hline, hl⟩ := List.mem_filterMap.mp hl
  rw [couplingLine] at hl
  split at hl
  · rename_i hadm
    split at hl
    · split at hl
      · cases hl
        exact ⟨line, hline, hadm, rfl⟩
      · cases hl
    · cases hl
  · cases hl

theorem nodup_of_mem_couplingLines {stod : Str → Option K} {text : Str}
    (h : NoSiteTwice text) {l : List Str × K} (hl : l ∈ couplingLines stod text) :
    l.1.Nodup := by
  obtain ⟨line, hline, hadm, hl⟩ := exists_of_mem_couplingLines hl
  rw [hl]
  exact h line hline hadm

theorem nodup_of_mem_edgesOf {stod : Str → Option K} {text : Str} (h : NoSiteTwice text)
    (hN : (siteNames (couplingLines stod text)).length ≤ 2 ^ 32) {e : EdgeType K}
    (he : e ∈ edgesOf (couplingLines stod text)) : e.1.Nodup := by
  obtain ⟨l, hl, rfl⟩ := List.mem_map.mp (mem_of_mem_keepFirst he)
  exact nodup_numbered hN hl (nodup_of_mem_couplingLines h hl)

/-! ## The books of a run -/

variable [IsStrictOrderedRing K]

theorem Booked.computeEnergy {H : HamiltonianType K} {edges : List (EdgeType K)}
    (hI : Incidence H edges) {st : Annealing K G} (h : Booked H edges st) {fuel : ℕ}
    (hN : H.size < 2 ^ 32) (hf : H.size < fuel) :
    computeEnergy fuel st.self = .ok st.E ∧ IsConfig H.size st.self.spins_ := by
  refine ⟨?_, h.onH.config⟩
  rw [h.onH.eq_mk, computeEnergy_spec hI h.onH.config hN hf, h.energy]

/-- **Energy bookkeeping.** On the Hamiltonian of a file whose lines repeat no site,
for every schedule of `beta` and every generator: the energy a run returns is
`compute_energy` of the configuration it returns; from every configuration the double
loop keeps this equality in every state it visits, its last one included; and a run
returns whenever its 32-bit counters hold the number of sites and of sweeps. -/
theorem run_energy_bookkeeping {stod : Str → Option K} {text : Str} {buildFuel : ℕ}
    {H : HamiltonianType K} (hbuild : hamiltonianType buildFuel stod text = .ok H)
    (honce : NoSiteTwice text) (lib : Numerics K G) (beta : ℕ → Option K) (Ns fuel : ℕ) :
    (∀ seed r, runWith fuel lib (saSolver H) beta Ns seed = .ok r →
      computeEnergy fuel { N_ := H.size, H_ := H, spins_ := r.fst.spins_ } = .ok r.fst.E_
        ∧ IsConfig H.size r.fst.spins_) ∧
    (∀ spins gen E, IsConfig H.size spins →
      computeEnergy fuel { N_ := H.size, H_ := H, spins_ := spins } = .ok E →
      ∀ st, ((∃ s i, Visited lib beta Ns
            ⟨gen, E, { N_ := H.size, H_ := H, spins_ := spins }⟩ s i st)
          ∨ anneal fuel lib beta Ns
            ⟨gen, E, { N_ := H.size, H_ := H, spins_ := spins }⟩ = .ok st) →
        computeEnergy fuel st.self = .ok st.E ∧ IsConfig H.size st.self.spins_) ∧
    (H.size < 2 ^ 32 → H.size < fuel → Ns < 2 ^ 32 → Ns < fuel →
      ∀ seed, ∃ r, runWith fuel lib (saSolver H) beta Ns seed = .ok r) := by
  obtain ⟨hsize, hI⟩ := (hamiltonianType_built buildFuel stod text).of_ok hbuild
  have hnodup : H.size < 2 ^ 32 →
      ∀ e ∈ edgesOf (couplingLines stod text), e.1.Nodup := fun hN e he =>
    nodup_of_mem_edgesOf honce (by omega) he
  have hreturn : H.size < 2 ^ 32 → H.size < fuel → Ns < 2 ^ 32 → Ns < fuel → ∀ seed,
      Meets (runWith fuel lib (saSolver H) beta Ns seed) (fun _ => False) (fun r =>
        r.2 = saSolver H ∧ ∃ gen, Booked H (edgesOf (couplingLines stod text))
          ⟨gen, r.fst.E_, { N_ := H.size, H_ := H, spins_ := r.fst.spins_ }⟩) :=
    fun hN hf hNs hfs seed => runWith_keeps hI (fun _ h => h.onH) (fun _ hon hE => ⟨hon, hE⟩)
      (fun s _ _ h hi => h.flipped (hnodup hN) lib (beta s) hi) hN hf hNs hfs seed
  refine ⟨?_, ?_, ?_⟩
  · intro seed r hr
    -- a run that returns has had counters wide enough
    obtain ⟨hN, hf, hNs, hfs⟩ := runWith_ok hr
    obtain ⟨-, gen, hbooked⟩ := (hreturn hN hf hNs hfs seed).of_ok hr
    exact hbooked.computeEnergy hI hN hf
  · intro spins gen E hc hE st hst
    obtain ⟨hN, hf⟩ := computeEnergy_ok hE
    rw [computeEnergy_spec hI hc hN hf] at hE
    have hstart : Booked H (edgesOf (couplingLines stod text))
        ⟨gen, E, { N_ := H.size, H_ := H, spins_ := spins }⟩ :=
      ⟨⟨rfl, rfl, hc⟩, (Except.ok.inj hE).symm⟩
    -- the last state is one of those visited
    have hvisited : ∃ s i, Visited lib beta Ns
        ⟨gen, E, { N_ := H.size, H_ := H, spins_ := spins }⟩ s i st := by
      rcases hst with h | h
      · exact h
      · obtain ⟨s, -, hs⟩ := anneal_visited h
        exact ⟨s, 0, hs⟩
    obtain ⟨s, i, hv⟩ := hvisited
    have hbooked := hv.keeps hI (fun _ h => h.onH)
      (fun beta _ _ h hi => h.flipped (hnodup hN) lib beta hi) hstart
    exact hbooked.computeEnergy hI hN hf
  · intro hN hf hNs hfs seed
    exact exists_runWith hI lib beta hN hf hNs hfs seed

/-- The three parts at work on the sample lattice: a run, the energy it returns, and the state
after the first turn of the double loop. -/
theorem run_energy_bookkeeping_sample :
    (∃ r, runWith 4 sampleLib (saSolver sampleH) (fun _ => some 1) 3 7 = .ok r ∧
      computeEnergy 4 { N_ := 3, H_ := sampleH, spins_ := r.fst.spins_ } = .ok r.fst.E_) ∧
    ∃ st, Visited sampleLib (fun _ => some 1) 3
        ⟨5, 3, { N_ := 3, H_ := sampleH, spins_ := [1, 1, 0] }⟩ 0 1 st ∧
      computeEnergy 4 st.self = .ok st.E ∧ IsConfig 3 st.self.spins_ := by
  have hbuild : hamiltonianType 4 stodInteger sampleText = .ok sampleH := by decide
  have honce : NoSiteTwice sampleText := by
    unfold NoSiteTwice
    decide
  obtain ⟨hbooks, hvisited, hreturns⟩ :=
    run_energy_bookkeeping hbuild honce sampleLib (fun _ => some 1) 3 4
  constructor
  · obtain ⟨r, hr⟩ := hreturns (by decide) (by decide) (by decide) (by decide) 7
    exact ⟨r, hr, (hbooks 7 r hr).1⟩
  · obtain ⟨-, hI⟩ := (hamiltonianType_built 4 stodInteger sampleText).of_ok hbuild
    have hturn : flipStep sampleLib (some 1) 0
        ⟨5, 3, { N_ := 3, H_ := sampleH, spins_ := [1, 1, 0] }⟩ = .ok _ :=
      flipStep_eq hI sampleLib (some 1) ⟨rfl, rfl, rfl, by decide⟩ (by decide)
    have hstart : Visited sampleLib (fun _ => some 1) 3
        ⟨5, 3, { N_ := 3, H_ := sampleH, spins_ := [1, 1, 0] }⟩ 0 0 _ := Visited.start
    have hv := hstart.turn (by decide) (by decide) hturn
    exact ⟨_, hv, hvisited [1, 1, 0] 5 3 ⟨rfl, by decide⟩ (by decide +kernel) _
      (Or.inl ⟨0, 1, hv⟩)⟩

/-! ## No fault on the way -/

/-- **No access out of range and no zero divisor from text to result.** A line that is
read has a token, so that the last one is there and `size() - 1` does not wrap. The
constructor fails only where `std::stod` throws (or a line is too long for a 32-bit
counter). Every edge it stores names a site, and only sites below `size()`. On
fewer than `2 ^ 32` sites a solve with fewer than `2 ^ 32` sweeps runs to its end. -/
theorem no_fault_from_text_to_result (stod : Str → Option K) (text : Str) (buildFuel : ℕ) :
    (∀ line, admitted line = true →
      tokens line ≠ [] ∧ pred64 (tokens line).length < (tokens line).length) ∧
    (∀ e, hamiltonianType buildFuel stod text = .error e →
      e = .invalidArgument ∨ e = .outOfFuel) ∧
    (∀ H, hamiltonianType buildFuel stod text = .ok H →
      (∀ node ∈ H.nodes_, ∀ e ∈ node, e.1 ≠ [] ∧ ∀ a ∈ e.1, a < H.size) ∧
      (H.size < 2 ^ 32 → ∀ (lib : Numerics K G) (beta0 beta1 : K) (Ns seed fuel : ℕ),
        Ns < 2 ^ 32 → H.size < fuel → Ns < fuel →
        ∃ r, solve fuel lib H beta0 beta1 Ns seed = .ok r)) := by
  refine ⟨?_, ?_, ?_⟩
  · intro line hadm
    have hne := tokens_ne_nil hadm
    have hlen : 0 < (tokens line).length := List.length_pos_iff.mpr hne
    exact ⟨hne, by rw [pred64_of_pos hlen]; omega⟩
  · intro e he
    exact (hamiltonianType_built buildFuel stod text).of_error he
  · intro H hH
    obtain ⟨-, hI⟩ := (hamiltonianType_built buildFuel stod text).of_ok hH
    constructor
    · intro node hnode e he
      rw [hI.nodes] at hnode
      obtain ⟨i, -, rfl⟩ := List.mem_map.mp hnode
      have hmem := List.mem_filter.mp he
      have hie : i ∈ e.1 := by simpa using hmem.2
      exact ⟨List.ne_nil_of_mem hie, hI.sites_lt e hmem.1⟩
    · intro hN lib beta0 beta1 Ns seed fuel hNs hf hfs
      obtain ⟨r, hr⟩ := exists_runWith hI lib (schedule beta0 beta1 Ns) hN hf hNs hfs seed
      exact ⟨r.1, by rw [solve, run, hr, ok_bind]⟩

/-- A line without sites and one with a zero coupling among the others. -/
theorem no_fault_from_text_to_result_sample :
    ∃ r, solve 4 sampleLib sampleH (1 / 10) 3 1 7 = .ok r := by
  have hbuild : hamiltonianType 4 stodInteger sampleText = .ok sampleH := by decide
  obtain ⟨-, -, hsolve⟩ := no_fault_from_text_to_result stodInteger sampleText 4
  exact (hsolve sampleH hbuild).2 (by decide) sampleLib (1 / 10) 3 1 7 4 (by decide)
    (by decide) (by decide)

end SpinGlass
