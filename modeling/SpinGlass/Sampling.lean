import SpinGlass.Runs
import SpinGlass.Lib.RandomStep
import Mathlib.Analysis.SpecialFunctions.Exp

/-!
# Sampling — the inner loop of `run` as a Metropolis sampler

Here the draws of `realnums` are a stream of independent uniform numbers of
`[0, 1)` and `exp` is an exponential. The probabilities of the program are
those of the streams on which `flipStep` and `sweep` lead from one
configuration to another; they turn out to be the entries of Metropolis
matrices, which the Boltzmann weight of `compute_energy` is kept by.
-/

namespace SpinGlass

open Text CountedLoop MultiSpin RandomStep Metropolis MeasureTheory

/-- A configuration on `N` sites: the bit of every site. -/
abbrev Bits (N : ℕ) := Fin N → Fin 2

/-- The vector of the bits. -/
def Bits.spins {N : ℕ} (s : Bits N) : List ℕ := List.ofFn fun i => (s i : ℕ)

/-- The configuration with the bit of site `i` turned over. -/
def Bits.flip {N : ℕ} (i : Fin N) (s : Bits N) : Bits N := Function.update s i (1 - s i)

/-- The object of `run` in the configuration `s`. -/
def onBits {K : Type} (H : HamiltonianType K) (s : Bits H.size) : SaSolver K :=
  { N_ := H.size, H_ := H, spins_ := s.spins }

@[simp] theorem onBits_spins {K : Type} (H : HamiltonianType K) (s : Bits H.size) :
    (onBits H s).spins_ = s.spins := rfl

/-- The probability that turn `i` of the inner loop leads from `s` to `t`. -/
noncomputable def flipProb (lib : Numerics ℝ (ℕ → ℝ)) (beta : ℝ) (H : HamiltonianType ℝ)
    (E : ℝ) (i : Fin H.size) (s t : Bits H.size) : ℝ :=
  streamLaw.real {g | ∃ st, flipStep lib (some beta) i ⟨g, E, onBits H s⟩ = .ok st ∧
    st.self.spins_ = t.spins}

/-- The probability that the whole inner loop leads from `s` to `t`. -/
noncomputable def sweepProb (fuel : ℕ) (lib : Numerics ℝ (ℕ → ℝ)) (beta : ℝ)
    (H : HamiltonianType ℝ) (E : ℝ) (s t : Bits H.size) : ℝ :=
  streamLaw.real {g | ∃ st, sweep fuel lib (some beta) ⟨g, E, onBits H s⟩ = .ok st ∧
    st.self.spins_ = t.spins}

/-! ## Bits and vectors -/

section Bits

variable {N : ℕ} (s : Bits N)

theorem Bits.isConfig : IsConfig N s.spins := by
  constructor
  · simp [Bits.spins]
  · intro x hx
    obtain ⟨i, rfl⟩ := List.mem_ofFn.mp hx
    have := (s i).isLt
    omega

theorem Bits.spins_inj {s t : Bits N} : s.spins = t.spins ↔ s = t := by
  constructor
  · intro h
    have hval := List.ofFn_injective h
    funext i
    exact Fin.ext (congrFun hval i)
  · intro h
    rw [h]

theorem Bits.getD_spins (i : Fin N) : s.spins.getD i 0 = s i := by
  simp [Bits.spins]

theorem Bits.flip_flip (i : Fin N) : (s.flip i).flip i = s := by
  funext a
  by_cases ha : a = i
  · subst ha
    simp [Bits.flip]
  · simp [Bits.flip, ha]

theorem Bits.flip_ne (i : Fin N) : s.flip i ≠ s := by
  intro h
  have hi := congrFun h i
  rw [Bits.flip, Function.update_self] at hi
  generalize s i = b at hi
  revert hi
  revert b
  decide

/-- `spins_[i] ^ 1` is the bit turned over. -/
theorem Bits.spins_flip (i : Fin N) :
    (s.flip i).spins = s.spins.set i (s.spins.getD i 0 ^^^ 1) := by
  have hbit : ∀ b : Fin 2, ((1 - b : Fin 2) : ℕ) = (b : ℕ) ^^^ 1 := by decide
  rw [s.getD_spins]
  apply List.ext_getElem (by simp [Bits.spins])
  intro a ha ha'
  have haN : a < N := by simpa [Bits.spins] using ha
  rw [List.getElem_set]
  by_cases hia : (i : ℕ) = a
  · subst hia
    simp [Bits.spins, Bits.flip, hbit]
  · have hne : (⟨a, haN⟩ : Fin N) ≠ i := fun h => hia (congrArg Fin.val h).symm
    simp [Bits.spins, Bits.flip, hia, hne]

end Bits

/-! ## The program on a stream -/

/-- The energy of a configuration. -/
def energyOf {K : Type} [Field K] {N : ℕ} (edges : List (EdgeType K)) (s : Bits N) : K :=
  sharedEnergy (spinAt s.spins) edges

section Program

variable {H : HamiltonianType ℝ} {edges : List (EdgeType ℝ)} {lib : Numerics ℝ (ℕ → ℝ)}

/-- The change of the energy that `delta_energy` gives. -/
theorem change_eq (hn : ∀ e ∈ edges, e.1.Nodup) (i : Fin H.size) (s : Bits H.size) :
    change (spinAt s.spins) edges i = energyOf edges (s.flip i) - energyOf edges s := by
  rw [energyOf, energyOf, s.spins_flip, (s.isConfig.set_xor i.isLt).2,
    sharedEnergy_flipAt hn]
  ring

variable (hI : Incidence H edges) (hn : ∀ e ∈ edges, e.1.Nodup)
  (hdraws : lib.realnums = nextDraw) (beta : ℝ)

include hI hn hdraws

/-- **A turn of the inner loop is a Metropolis step.** -/
theorem flipStep_bits (E : ℝ) (i : Fin H.size) (s : Bits H.size) (g : ℕ → ℝ) :
    ∃ E', flipStep lib (some beta) i ⟨g, E, onBits H s⟩
      = .ok ⟨(metropolisStep lib.exp beta (Bits.flip i) (energyOf edges) s g).2, E',
          onBits H (metropolisStep lib.exp beta (Bits.flip i) (energyOf edges) s g).1⟩ := by
  have hon : OnH H (⟨g, E, onBits H s⟩ : Annealing ℝ (ℕ → ℝ)).self := ⟨rfl, rfl, s.isConfig⟩
  have hstep := flipStep_eq hI lib (some beta) hon i.isLt
  have hchange : change (spinAt (onBits H s).spins_) edges i
      = energyOf edges (s.flip i) - energyOf edges s := change_eq hn i s
  simp only [hchange] at hstep
  rw [hstep, flipped, accepts, hdraws, metropolisStep]
  have hflip : onBits H (s.flip i) = { onBits H s with
      spins_ := (onBits H s).spins_.set i ((onBits H s).spins_.getD i 0 ^^^ 1) } := by
    simp only [onBits, s.spins_flip]
  by_cases hdown : energyOf edges (s.flip i) - energyOf edges s ≤ 0
  · refine ⟨E + (energyOf edges (s.flip i) - energyOf edges s), ?_⟩
    simp only [if_pos hdown, if_true, hflip]
  · by_cases hdraw : (nextDraw g).1
        < lib.exp (-beta * (energyOf edges (s.flip i) - energyOf edges s))
    · refine ⟨E + (energyOf edges (s.flip i) - energyOf edges s), ?_⟩
      simp only [if_neg hdown, hdraw, decide_true, if_true, hflip]
    · refine ⟨E, ?_⟩
      simp only [if_neg hdown, hdraw, decide_false, if_false, Bool.false_eq_true]

/-- **The inner loop is a run of Metropolis steps**, one site after the other. -/
theorem sweep_bits {fuel : ℕ} (hN : H.size < 2 ^ 32) (hf : H.size < fuel) (E : ℝ)
    (s : Bits H.size) (g : ℕ → ℝ) :
    ∃ E', sweep fuel lib (some beta) ⟨g, E, onBits H s⟩
      = .ok ⟨(runAll (fun i => metropolisStep lib.exp beta (Bits.flip i) (energyOf edges))
            (List.finRange H.size) s g).2, E',
          onBits H (runAll (fun i => metropolisStep lib.exp beta (Bits.flip i)
            (energyOf edges)) (List.finRange H.size) s g).1⟩ := by
  -- by induction on the sites still to come, from any configuration and stream
  suffices hsites : ∀ (l : List (Fin H.size)) (E : ℝ) (s : Bits H.size) (g : ℕ → ℝ),
      ∃ E', (l.map Fin.val).foldlM (fun st i => flipStep lib (some beta) i st)
          ⟨g, E, onBits H s⟩
        = .ok ⟨(runAll (fun i => metropolisStep lib.exp beta (Bits.flip i) (energyOf edges))
              l s g).2, E',
            onBits H (runAll (fun i => metropolisStep lib.exp beta (Bits.flip i)
              (energyOf edges)) l s g).1⟩ by
    have hrange : List.range H.size = (List.finRange H.size).map Fin.val := by
      simp
    rw [sweep, forUnsigned_eq (show (onBits H s).N_ < 2 ^ 32 from hN) hf,
      show (onBits H s).N_ = H.size from rfl, hrange]
    exact hsites (List.finRange H.size) E s g
  intro l
  induction l with
  | nil =>
      intro E s g
      exact ⟨E, rfl⟩
  | cons i l ih =>
      intro E s g
      obtain ⟨E₁, hstep⟩ := flipStep_bits hI hn hdraws beta E i s g
      obtain ⟨E₂, hrest⟩ := ih E₁ _ _
      refine ⟨E₂, ?_⟩
      rw [List.map_cons, List.foldlM_cons, hstep, ok_bind]
      exact hrest

/-! ## The probabilities -/

/-- The probabilities of a turn are those of the Metropolis matrix. -/
theorem flipProb_eq (hexp : IsExp lib.exp) (E : ℝ) (i : Fin H.size) (s t : Bits H.size) :
    flipProb lib beta H E i s t
      = metropolis lib.exp beta (Bits.flip i) (energyOf edges) s t := by
  have hdraw := draws_metropolisStep hexp beta (fun s => Bits.flip_ne s i) (energyOf edges)
  rw [← hdraw.prob s t, flipProb]
  congr 1
  ext g
  obtain ⟨E', hstep⟩ := flipStep_bits hI hn hdraws beta E i s g
  simp only [Set.mem_ofPred_eq, hstep, Except.ok.injEq, exists_eq_left', onBits_spins,
    Bits.spins_inj]

/-- The probabilities of a sweep are those of the product of the Metropolis matrices. -/
theorem sweepProb_eq (hexp : IsExp lib.exp) {fuel : ℕ} (hN : H.size < 2 ^ 32)
    (hf : H.size < fuel) (E : ℝ) (s t : Bits H.size) :
    sweepProb fuel lib beta H E s t
      = ((List.finRange H.size).map fun i =>
          metropolis lib.exp beta (Bits.flip i) (energyOf edges)).prod s t := by
  have hdraw := Draws.runAll (fun i => draws_metropolisStep hexp beta
    (fun s => Bits.flip_ne s i) (energyOf edges)) (List.finRange H.size)
  rw [← hdraw.prob s t, sweepProb]
  congr 1
  ext g
  obtain ⟨E', hstep⟩ := sweep_bits hI hn hdraws beta hN hf E s g
  simp only [Set.mem_ofPred_eq, hstep, Except.ok.injEq, exists_eq_left', onBits_spins,
    Bits.spins_inj]

end Program

/-! ## The sampler -/

/-- **The sweep is a Metropolis sampler.** On the Hamiltonian of a file whose lines repeat
no site, at a fixed `beta ≥ 0`: the probabilities of a sweep from a configuration add
up to one, they leave the Boltzmann weight of `compute_energy` invariant, and every
turn of the inner loop is in detailed balance with it. -/
theorem sweep_keeps_boltzmann {stod : Str → Option ℝ} {text : Str} {buildFuel : ℕ}
    {H : HamiltonianType ℝ} (hbuild : hamiltonianType buildFuel stod text = .ok H)
    (honce : NoSiteTwice text) {lib : Numerics ℝ (ℕ → ℝ)} (hdraws : lib.realnums = nextDraw)
    (hexp : IsExp lib.exp) {beta : ℝ} (hbeta : 0 ≤ beta) {fuel : ℕ} {w : Bits H.size → ℝ}
    (hw : ∀ s, ∃ E, computeEnergy fuel (onBits H s) = .ok E ∧ w s = lib.exp (-beta * E))
    (E : ℝ) :
    (∀ s, ∑ t, sweepProb fuel lib beta H E s t = 1) ∧
    (∀ t, ∑ s, w s * sweepProb fuel lib beta H E s t = w t) ∧
    (∀ i s, w s * flipProb lib beta H E i s (s.flip i)
      = w (s.flip i) * flipProb lib beta H E i (s.flip i) s) := by
  obtain ⟨hsize, hI⟩ := (hamiltonianType_built buildFuel stod text).of_ok hbuild
  obtain ⟨E₀, hE₀, -⟩ := hw fun _ => 0
  obtain ⟨hN, hf⟩ : H.size < 2 ^ 32 ∧ H.size < fuel := computeEnergy_ok hE₀
  have hn : ∀ e ∈ edgesOf (couplingLines stod text), e.1.Nodup := fun e he =>
    nodup_of_mem_edgesOf honce (by omega) he
  have hweight : w = fun s => boltzmann lib.exp beta
      (energyOf (edgesOf (couplingLines stod text)) s) := by
    funext s
    obtain ⟨E', hE', hws⟩ := hw s
    rw [onBits, computeEnergy_spec hI s.isConfig hN hf] at hE'
    rw [hws, ← Except.ok.inj hE']
    rfl
  refine ⟨?_, ?_, ?_⟩
  · intro s
    simp only [sweepProb_eq hI hn hdraws beta hexp hN hf]
    exact (Draws.runAll (fun i => draws_metropolisStep hexp beta
      (fun s => Bits.flip_ne s i) _) (List.finRange H.size)).sum_row s
  · intro t
    simp only [sweepProb_eq hI hn hdraws beta hexp hN hf, hweight]
    exact Keeps.prod (List.finRange H.size)
      (fun i _ => metropolis_keeps hexp hbeta fun s => s.flip_flip i) t
  · intro i s
    simp only [flipProb_eq hI hn hdraws beta hexp, hweight]
    exact metropolis_balanced hexp hbeta (fun s => s.flip_flip i) s (s.flip i)

/-- Real couplings, a stream of draws and the real exponential. -/
noncomputable def realLib : Numerics ℝ (ℕ → ℝ) where
  seed _ _ := 0
  binaries g := (0, g)
  realnums := nextDraw
  exp := Real.exp

/-- `std::stod` on the numbers of the shipped lattices, with real values. -/
noncomputable def stodReal (x : Str) : Option ℝ := (stodInteger x).map fun q => (q : ℝ)

/-- The sample lattice, with real couplings. -/
theorem sweep_keeps_boltzmann_sample :
    ∃ H, ∃ w : Bits H.size → ℝ, hamiltonianType 6 stodReal sampleText = .ok H ∧
      (∀ s, 0 < w s) ∧ ∀ t, ∑ s, w s * sweepProb 6 realLib 1 H 0 s t = w t := by
  have hnum : AllNumeric stodReal sampleText := by
    unfold AllNumeric stodReal
    decide
  have honce : NoSiteTwice sampleText := by
    unfold NoSiteTwice
    decide
  -- the names and the length of every line, whatever the couplings are
  have hlines : ∀ line ∈ getlines '\n' sampleText, admitted line = true →
      (tokens line).dropLast.length < 4 ∧ ∀ x ∈ (tokens line).dropLast,
        x ∈ ["4", "5", "6", "7", "9"].map String.toList := by decide
  have hline : ∀ l ∈ couplingLines stodReal sampleText, l.1.length < 4 ∧
      ∀ x ∈ l.1, x ∈ ["4", "5", "6", "7", "9"].map String.toList := by
    intro l hl
    obtain ⟨line, hline, hadm, hl⟩ := exists_of_mem_couplingLines hl
    rw [hl]
    exact hlines line hline hadm
  have hshort : ∀ l ∈ couplingLines stodReal sampleText,
      l.1.length < 2 ^ 32 ∧ l.1.length < 6 := by
    intro l hl
    have := (hline l hl).1
    omega
  obtain ⟨-, H, -, hH⟩ := hamiltonianType_returns hnum hshort
  obtain ⟨hsize, hI⟩ := (hamiltonianType_built 6 stodReal sampleText).of_ok hH
  have hfive : H.size ≤ 5 := by
    rw [hsize]
    have hsub : siteNames (couplingLines stodReal sampleText)
        ⊆ ["4", "5", "6", "7", "9"].map String.toList := by
      intro x hx
      obtain ⟨l, hl, hx⟩ := mem_siteNames.mp hx
      exact (hline l hl).2 x hx
    exact ((nodup_siteNames _).subperm hsub).length_le
  have hexp : IsExp realLib.exp := ⟨Real.exp_pos, Real.exp_add, Real.exp_monotone⟩
  have hw : ∀ s : Bits H.size, ∃ E, computeEnergy 6 (onBits H s) = .ok E ∧
      Real.exp (-1 * energyOf (edgesOf (couplingLines stodReal sampleText)) s)
        = realLib.exp (-1 * E) := fun s =>
    ⟨_, computeEnergy_spec hI s.isConfig (by omega) (by omega), rfl⟩
  exact ⟨H, _, hH, fun s => Real.exp_pos _,
    (sweep_keeps_boltzmann hH honce rfl hexp zero_le_one hw 0).2.1⟩

end SpinGlass
