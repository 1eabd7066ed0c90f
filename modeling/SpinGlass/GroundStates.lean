import SpinGlass.IntegerEnergies
import SpinGlass.RunLaw

/-!
# GroundStates — how often `solve` finds one

`solve` cools down: `beta` rises in equal steps from `beta0` to `beta1`. On the
streams of `RunLaw` every configuration then comes out with a probability that is
bounded below by its energy over the lowest one, and a ground state at least as
often as by guessing.
-/

namespace SpinGlass

open Text CountedLoop MultiSpin RandomStep Metropolis MeasureTheory

/-- The streams on which `solve` hands back a result with the property `p`. -/
def solvesTo (fuel : ℕ) (lib : Numerics ℝ (ℕ → ℝ)) (H : HamiltonianType ℝ) (beta0 beta1 : ℝ)
    (Ns seed : ℕ) (p : Result ℝ → Prop) : Set (ℕ → ℝ) :=
  {g | ∃ r, solve fuel { lib with seed := fun _ => g } H beta0 beta1 Ns seed = .ok r ∧ p r}

/-- The probability that it does. -/
noncomputable def solveProb (fuel : ℕ) (lib : Numerics ℝ (ℕ → ℝ)) (H : HamiltonianType ℝ)
    (beta0 beta1 : ℝ) (Ns seed : ℕ) (p : Result ℝ → Prop) : ℝ :=
  streamLaw.real (solvesTo fuel lib H beta0 beta1 Ns seed p)

/-! ## The schedule -/

/-- The values of `beta`, going on beyond the last sweep as the values before it. -/
noncomputable def linearBeta (beta0 beta1 : ℝ) (Ns s : ℕ) : ℝ :=
  beta0 + (beta1 - beta0) / (pred64 Ns : ℝ) * (s : ℝ)

section Schedule

variable {beta0 beta1 : ℝ}

theorem schedule_eq {Ns : ℕ} (hone : Ns ≠ 1) :
    schedule beta0 beta1 Ns = fun s => some (linearBeta beta0 beta1 Ns s) := by
  have hpred : pred64 Ns ≠ 0 := by
    unfold pred64
    split <;> omega
  funext s
  rw [schedule, if_neg hpred]
  rfl

theorem linearBeta_mono (h01 : beta0 ≤ beta1) (Ns : ℕ) : Monotone (linearBeta beta0 beta1 Ns) := by
  intro s s' hs
  have hslope : 0 ≤ (beta1 - beta0) / (pred64 Ns : ℝ) :=
    div_nonneg (sub_nonneg.mpr h01) (Nat.cast_nonneg _)
  have hcast : (s : ℝ) ≤ s' := by exact_mod_cast hs
  have := mul_le_mul_of_nonneg_left hcast hslope
  unfold linearBeta
  linarith

theorem linearBeta_le (h01 : beta0 ≤ beta1) {Ns s : ℕ} (hs : s < Ns) :
    linearBeta beta0 beta1 Ns s ≤ beta1 := by
  have hpred : pred64 Ns = Ns - 1 := if_neg (by omega)
  have hcast : (s : ℝ) ≤ ((Ns - 1 : ℕ) : ℝ) := by
    have : s ≤ Ns - 1 := by omega
    exact_mod_cast this
  calc linearBeta beta0 beta1 Ns s
      = beta0 + (beta1 - beta0) * (s / ((Ns - 1 : ℕ) : ℝ)) := by
        rw [linearBeta, hpred]
        ring
    _ ≤ beta0 + (beta1 - beta0) * 1 := by
        have hfrac : (s : ℝ) / ((Ns - 1 : ℕ) : ℝ) ≤ 1 := div_le_one_of_le₀ hcast (Nat.cast_nonneg _)
        have := mul_le_mul_of_nonneg_left hfrac (sub_nonneg.mpr h01)
        linarith
    _ = beta1 := by ring

end Schedule

/-- `solve` is a run at the values of the schedule. -/
theorem solve_ok_iff {K G : Type} [Field K] [LinearOrder K] {fuel : ℕ} {lib : Numerics K G}
    {H : HamiltonianType K} {beta0 beta1 : K} {Ns seed : ℕ} {r : Result K} :
    solve fuel lib H beta0 beta1 Ns seed = .ok r ↔
      ∃ self, runWith fuel lib (saSolver H) (schedule beta0 beta1 Ns) Ns seed = .ok (r, self) := by
  rw [solve, run, bind_eq_ok]
  constructor
  · rintro ⟨⟨r', self⟩, hr, heq⟩
    cases heq
    exact ⟨self, hr⟩
  · rintro ⟨self, hr⟩
    exact ⟨_, hr, rfl⟩

/-! ## The probabilities -/

section Program

variable {H : HamiltonianType ℝ} {edges : List (EdgeType ℝ)} {lib : Numerics ℝ (ℕ → ℝ)}
  (hI : Incidence H edges) (hn : ∀ e ∈ edges, e.1.Nodup) (hdraws : lib.realnums = nextDraw)
  {beta0 beta1 : ℝ} {fuel Ns : ℕ} (hN : H.size < 2 ^ 32) (hf : H.size < fuel)
  (hNs : Ns < 2 ^ 32) (hfs : Ns < fuel) (seed : ℕ)

include hI hn hdraws hN hf hNs hfs

theorem solvesTo_spins (t : Bits H.size) :
    solvesTo fuel lib H beta0 beta1 Ns seed (fun r => r.spins_ = t.spins)
      = {g | (runSource lib edges H.size (schedule beta0 beta1 Ns) Ns g).1 = t} := by
  rw [← setOf_runWith hI hn hdraws hN hf _ hNs hfs seed]
  ext g
  simp only [solvesTo, Set.mem_ofPred_eq, solve_ok_iff, Prod.exists]
  constructor
  · rintro ⟨r, ⟨self, hr⟩, hspins⟩
    exact ⟨r, self, hr, hspins⟩
  · rintro ⟨r, self, hr, hspins⟩
    exact ⟨r, ⟨self, hr⟩, hspins⟩

variable (hcoin : FairCoin lib.binaries) (hexp : IsExp lib.exp)

include hcoin hexp

theorem solveProb_spins (t : Bits H.size) :
    solveProb fuel lib H beta0 beta1 Ns seed (fun r => r.spins_ = t.spins)
      = annealedLaw lib.exp edges H.size (schedule beta0 beta1 Ns) Ns t := by
  rw [solveProb, solvesTo_spins hI hn hdraws hN hf hNs hfs,
    (yields_runSource hcoin hexp H.size _ Ns).prob]

/-- Different configurations come out on different streams. -/
theorem sum_solveProb_le {p : Result ℝ → Prop} {ts : Finset (Bits H.size)}
    (hp : ∀ t ∈ ts, solvesTo fuel lib H beta0 beta1 Ns seed (fun r => r.spins_ = t.spins)
      ⊆ solvesTo fuel lib H beta0 beta1 Ns seed p) :
    ∑ t ∈ ts, solveProb fuel lib H beta0 beta1 Ns seed (fun r => r.spins_ = t.spins)
      ≤ solveProb fuel lib H beta0 beta1 Ns seed p := by
  have hmeas : ∀ t ∈ ts, MeasurableSet
      (solvesTo fuel lib H beta0 beta1 Ns seed (fun r => r.spins_ = t.spins)) := by
    intro t _
    rw [solvesTo_spins hI hn hdraws hN hf hNs hfs]
    simpa using (yields_runSource hcoin hexp H.size _ Ns).measurable t Set.univ MeasurableSet.univ
  have hdisj : Set.PairwiseDisjoint (ts : Set (Bits H.size)) fun t =>
      solvesTo fuel lib H beta0 beta1 Ns seed (fun r => r.spins_ = t.spins) := by
    intro t _ t' _ hne
    apply Set.disjoint_left.mpr
    rintro g ⟨r, hr, hspins⟩ ⟨r', hr', hspins'⟩
    cases hr.symm.trans hr'
    exact hne (Bits.spins_inj.mp (hspins.symm.trans hspins'))
  calc ∑ t ∈ ts, solveProb fuel lib H beta0 beta1 Ns seed (fun r => r.spins_ = t.spins)
      = streamLaw.real (⋃ t ∈ ts,
          solvesTo fuel lib H beta0 beta1 Ns seed (fun r => r.spins_ = t.spins)) :=
        (measureReal_biUnion_finset hdisj hmeas).symm
    _ ≤ solveProb fuel lib H beta0 beta1 Ns seed p :=
        measureReal_mono (Set.iUnion₂_subset hp)

/-- **A bound for every configuration**, by its energy over a lower bound of the energies. -/
theorem le_solveProb_spins (hone : Ns ≠ 1) (h0 : 0 ≤ beta0) (h01 : beta0 ≤ beta1) {E0 : ℝ}
    (hmin : ∀ s : Bits H.size, E0 ≤ energyOf edges s) (t : Bits H.size) :
    (1 / 2) ^ H.size * lib.exp (-beta1 * (energyOf edges t - E0))
      ≤ solveProb fuel lib H beta0 beta1 Ns seed (fun r => r.spins_ = t.spins) := by
  have hbeta : ∀ k, 0 ≤ linearBeta beta0 beta1 Ns k := by
    intro k
    have hfirst : linearBeta beta0 beta1 Ns 0 = beta0 := by simp [linearBeta]
    calc 0 ≤ linearBeta beta0 beta1 Ns 0 := by rw [hfirst]; exact h0
      _ ≤ linearBeta beta0 beta1 Ns k := linearBeta_mono h01 Ns (Nat.zero_le k)
  rw [solveProb_spins hI hn hdraws hN hf hNs hfs seed hcoin hexp, schedule_eq hone]
  exact boltzmann_le_of_cooling hexp hmin
    (fun k => sweepMatrix_nonneg hexp (some (linearBeta beta0 beta1 Ns k))) hbeta
    (linearBeta_mono h01 Ns) (fun k => keeps_sweepMatrix hexp (hbeta k)) (by positivity)
    (fun _ => le_refl _) (h0.trans h01) (fun k hk => linearBeta_le h01 hk) t

/-- A configuration of the lowest energy, also where one sweep leaves no value of `beta`. -/
theorem le_solveProb_lowest (h0 : 0 ≤ beta0) (h01 : beta0 ≤ beta1) {t : Bits H.size}
    (hmin : ∀ s : Bits H.size, energyOf edges t ≤ energyOf edges s) :
    (1 / 2) ^ H.size
      ≤ solveProb fuel lib H beta0 beta1 Ns seed (fun r => r.spins_ = t.spins) := by
  by_cases hone : Ns = 1
  · have hdown : schedule beta0 beta1 Ns = fun _ => none := by
      rw [hone]
      rfl
    have hkept : Keeps (fun s : Bits H.size => (1 / 2) ^ H.size
        * if energyOf edges s = energyOf edges t then 1 else 0)
        (sweepMatrix lib.exp edges H.size none) :=
      (Keeps.prod (List.finRange H.size) fun i _ =>
        downhill_keeps (fun s => s.flip_flip i) hmin).const_mul _
    have hstart : ∀ s : Bits H.size, ((1 / 2) ^ H.size
        * if energyOf edges s = energyOf edges t then 1 else 0 : ℝ)
          ≤ annealedLaw lib.exp edges H.size (schedule beta0 beta1 Ns) 0 s := by
      intro s
      rw [annealedLaw_zero]
      split
      · rw [mul_one]
      · rw [mul_zero]
        positivity
    have hle := hkept.le_vecMul (sweepMatrix_nonneg hexp none) hstart t
    rw [if_pos rfl, mul_one] at hle
    rw [solveProb_spins hI hn hdraws hN hf hNs hfs seed hcoin hexp]
    subst hone
    rw [annealedLaw_succ, hdown]
    rw [hdown] at hle
    exact hle
  · have h := le_solveProb_spins hI hn hdraws hN hf hNs hfs seed hcoin hexp hone h0 h01 hmin t
    rwa [sub_self, mul_zero, hexp.zero, mul_one] at h

end Program

/-! ## Ground states -/

/-- **Annealing finds a ground state at least as often as guessing.** On the Hamiltonian of
a file whose lines repeat no site, for `0 ≤ beta0 ≤ beta1` and a lower bound `E0` of the
energies: the result has the energy `E0` with probability at least `n / 2^N` where `n`
configurations have it; and unless there is one sweep only, for which `beta` is not a
number, a configuration of energy `E` comes out with probability at least
`exp(-beta1*(E - E0)) / 2^N`. -/
theorem ground_states_found {stod : Str → Option ℝ} {text : Str} {buildFuel : ℕ}
    {H : HamiltonianType ℝ} (hbuild : hamiltonianType buildFuel stod text = .ok H)
    (honce : NoSiteTwice text) {lib : Numerics ℝ (ℕ → ℝ)} (hdraws : lib.realnums = nextDraw)
    (hcoin : FairCoin lib.binaries) (hexp : IsExp lib.exp) {beta0 beta1 : ℝ} (h0 : 0 ≤ beta0)
    (h01 : beta0 ≤ beta1) {fuel Ns : ℕ} (hN : H.size < 2 ^ 32) (hf : H.size < fuel)
    (hNs : Ns < 2 ^ 32) (hfs : Ns < fuel) (seed : ℕ) {E0 : ℝ}
    (hmin : ∀ s E, computeEnergy fuel (onBits H s) = .ok E → E0 ≤ E) :
    (∀ ts : Finset (Bits H.size), (∀ t ∈ ts, computeEnergy fuel (onBits H t) = .ok E0) →
      ts.card / 2 ^ H.size
        ≤ solveProb fuel lib H beta0 beta1 Ns seed (fun r => r.E_ = E0)) ∧
    (Ns ≠ 1 → ∀ t E, computeEnergy fuel (onBits H t) = .ok E →
      (1 / 2) ^ H.size * lib.exp (-beta1 * (E - E0))
        ≤ solveProb fuel lib H beta0 beta1 Ns seed (fun r => r.spins_ = t.spins)) := by
  obtain ⟨hsize, hI⟩ := (hamiltonianType_built buildFuel stod text).of_ok hbuild
  have hn : ∀ e ∈ edgesOf (couplingLines stod text), e.1.Nodup := fun e he =>
    nodup_of_mem_edgesOf honce (by omega) he
  have henergy : ∀ s, computeEnergy fuel (onBits H s)
      = .ok (energyOf (edgesOf (couplingLines stod text)) s) := fun s =>
    computeEnergy_spec hI s.isConfig hN hf
  constructor
  · intro ts hts
    have hground : ∀ t ∈ ts, (1 / 2) ^ H.size
        ≤ solveProb fuel lib H beta0 beta1 Ns seed (fun r => r.spins_ = t.spins) := by
      intro t ht
      apply le_solveProb_lowest hI hn hdraws hN hf hNs hfs seed hcoin hexp h0 h01
      intro s
      rw [Except.ok.inj ((henergy t).symm.trans (hts t ht))]
      exact hmin s _ (henergy s)
    -- a run that hands back a ground state has kept the books on it
    have hbooks : ∀ t ∈ ts,
        solvesTo fuel lib H beta0 beta1 Ns seed (fun r => r.spins_ = t.spins)
          ⊆ solvesTo fuel lib H beta0 beta1 Ns seed (fun r => r.E_ = E0) := by
      rintro t ht g ⟨r, hr, hspins⟩
      obtain ⟨self, hrun⟩ := solve_ok_iff.mp hr
      obtain ⟨-, gen, hbooked⟩ := runWith_booked honce hbuild hrun
      have hE := (hbooked.computeEnergy hI hN hf).1
      rw [hspins] at hE
      exact ⟨r, hr, Except.ok.inj (hE.symm.trans (hts t ht))⟩
    calc (ts.card : ℝ) / 2 ^ H.size
        = ∑ t ∈ ts, (1 / 2 : ℝ) ^ H.size := by
          rw [Finset.sum_const, nsmul_eq_mul, one_div_pow, mul_one_div]
      _ ≤ ∑ t ∈ ts, solveProb fuel lib H beta0 beta1 Ns seed (fun r => r.spins_ = t.spins) :=
          Finset.sum_le_sum hground
      _ ≤ solveProb fuel lib H beta0 beta1 Ns seed (fun r => r.E_ = E0) :=
          sum_solveProb_le hI hn hdraws hN hf hNs hfs seed hcoin hexp hbooks
  · intro hone t E hE
    rw [← Except.ok.inj ((henergy t).symm.trans hE)]
    exact le_solveProb_spins hI hn hdraws hN hf hNs hfs seed hcoin hexp hone h0 h01
      (fun s => hmin s _ (henergy s)) t

/-- A ground state of the ring, which any few sweeps find at least as often as guessing. -/
theorem ground_states_found_sample :
    ∃ H t E0, hamiltonianType 6 stodReal ringText = .ok H ∧
      computeEnergy 6 (onBits H t) = .ok E0 ∧
      (∀ s E, computeEnergy 6 (onBits H s) = .ok E → E0 ≤ E) ∧
      ∀ Ns < 6, (1 : ℝ) / 2 ^ H.size
        ≤ solveProb 6 coinLib H (1 / 10) 3 Ns 7 (fun r => r.E_ = E0) := by
  obtain ⟨H, hH, hfour⟩ := exists_ringReal
  obtain ⟨-, hI⟩ := (hamiltonianType_built 6 stodReal ringText).of_ok hH
  obtain ⟨t, ht⟩ := Finite.exists_min
    (energyOf (edgesOf (couplingLines stodReal ringText)) : Bits H.size → ℝ)
  have henergy : ∀ s, computeEnergy 6 (onBits H s)
      = .ok (energyOf (edgesOf (couplingLines stodReal ringText)) s) := fun s =>
    computeEnergy_spec hI s.isConfig (by omega) (by omega)
  have hmin : ∀ s E, computeEnergy 6 (onBits H s) = .ok E →
      energyOf (edgesOf (couplingLines stodReal ringText)) t ≤ E := by
    intro s E hE
    rw [← Except.ok.inj ((henergy s).symm.trans hE)]
    exact ht s
  have hbeta : (0 : ℝ) ≤ 1 / 10 := by norm_num
  have hcool : (1 / 10 : ℝ) ≤ 3 := by norm_num
  refine ⟨H, t, _, hH, henergy t, hmin, ?_⟩
  intro Ns hNs
  have h := (ground_states_found hH noSiteTwice_ring rfl fairCoin_halfCoin isExp_coinLib hbeta
    hcool (by omega) (by omega) (by omega) hNs 7 hmin).1 {t} fun s hs => by
      rw [Finset.mem_singleton.mp hs]
      exact henergy t
  simpa using h

end SpinGlass
