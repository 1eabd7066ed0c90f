import SpinGlass.Gauge
import SpinGlass.Sampling
import SpinGlass.Lib.RandomRun

/-!
# RunLaw — the law of what `run` hands back

The engine is again a stream of independent uniform numbers of `[0, 1)`, which
`realnums` reads as they come and `binaries` throws a fair coin from. The
result of a run with `Ns` sweeps is then a random configuration: it starts
uniform, whatever the two draws before `pushSpins` are, and every sweep moves
its law by the matrix of the sweep at the value of `beta` there (`run_law`). A
change of gauge relabels the states of that chain (`run_law_gauge`).
-/

namespace SpinGlass

open Text CountedLoop MultiSpin KeepFirst RandomStep Metropolis MeasureTheory

/-- The probability that a run with `Ns` sweeps hands back the configuration `t`. -/
noncomputable def runProb (fuel : ℕ) (lib : Numerics ℝ (ℕ → ℝ)) (beta : ℕ → Option ℝ)
    (H : HamiltonianType ℝ) (Ns seed : ℕ) (t : Bits H.size) : ℝ :=
  streamLaw.real {g | ∃ r, runWith fuel { lib with seed := fun _ => g } (saSolver H)
    beta Ns seed = .ok r ∧ r.1.spins_ = t.spins}

/-! ## The start -/

/-- The bits that `pushSpins` reads are those of `N` throws. -/
theorem pushSpins_bits (lib : Numerics ℝ (ℕ → ℝ)) {fuel N : ℕ} (hN : N < 2 ^ 32) (hf : N < fuel)
    (g : ℕ → ℝ) :
    pushSpins fuel lib N [] g
      = .ok (Bits.spins (readBits lib.binaries N g).1, (readBits lib.binaries N g).2) := by
  -- the loop counts up: by induction on the spins that have been pushed
  have hpushed : ∀ n, (List.range n).foldlM (fun (p : List ℕ × (ℕ → ℝ)) (_ : ℕ) =>
        (.ok (p.1 ++ [(lib.binaries p.2).1.val], (lib.binaries p.2).2) : Exec _)) ([], g)
      = .ok (Bits.spins (readBits lib.binaries n g).1, (readBits lib.binaries n g).2) := by
    intro n
    induction n with
    | zero => rfl
    | succ n ih =>
        have hspins : Bits.spins (readBits lib.binaries (n + 1) g).1
            = Bits.spins (readBits lib.binaries n g).1
              ++ [(lib.binaries (readBits lib.binaries n g).2).1.val] := by
          rw [Bits.spins, readBits, List.ofFn_succ_last]
          simp only [Fin.snoc_castSucc, Fin.snoc_last, Bits.spins]
        rw [List.range_succ, List.foldlM_append, ih, ok_bind, hspins]
        rfl
  rw [pushSpins, forUnsigned_eq hN hf]
  exact hpushed N

/-! ## The sweeps -/

section Program

variable {H : HamiltonianType ℝ} {edges : List (EdgeType ℝ)} {lib : Numerics ℝ (ℕ → ℝ)}

/-- A turn of the inner loop, as a step: without a value of `beta` no draw is small enough. -/
noncomputable def turnStep (exp : ℝ → ℝ) (edges : List (EdgeType ℝ)) {N : ℕ}
    (beta : Option ℝ) (i : Fin N) : Bits N → (ℕ → ℝ) → Bits N × (ℕ → ℝ) :=
  match beta with
  | some beta => metropolisStep exp beta (Bits.flip i) (energyOf edges)
  | none => descentStep (Bits.flip i) (energyOf edges)

/-- The probability with which a turn takes a change `dE`. -/
noncomputable def chance (exp : ℝ → ℝ) : Option ℝ → ℝ → ℝ
  | some beta => acceptance exp beta
  | none => downhill

/-- The matrix of the turn. -/
noncomputable def turnMatrix (exp : ℝ → ℝ) (edges : List (EdgeType ℝ)) {N : ℕ}
    (beta : Option ℝ) (i : Fin N) : Matrix (Bits N) (Bits N) ℝ :=
  ruled (chance exp beta) (Bits.flip i) (energyOf edges)

theorem draws_turnStep (hexp : IsExp lib.exp) {N : ℕ} (beta : Option ℝ) (i : Fin N) :
    Draws (turnStep lib.exp edges beta i) (turnMatrix lib.exp edges beta i) := by
  cases beta with
  | none => exact draws_descentStep _ _
  | some beta => exact draws_metropolisStep hexp beta (fun s => Bits.flip_ne s i) _

/-- The sweep at one value of `beta`, as a step. -/
noncomputable def sweepStep (exp : ℝ → ℝ) (edges : List (EdgeType ℝ)) {N : ℕ}
    (beta : Option ℝ) : Bits N → (ℕ → ℝ) → Bits N × (ℕ → ℝ) :=
  runAll (turnStep exp edges beta) (List.finRange N)

/-- The matrix of the sweep. -/
noncomputable def sweepMatrix (exp : ℝ → ℝ) (edges : List (EdgeType ℝ)) (N : ℕ)
    (beta : Option ℝ) : Matrix (Bits N) (Bits N) ℝ :=
  ((List.finRange N).map (turnMatrix exp edges beta)).prod

theorem draws_sweepStep (hexp : IsExp lib.exp) {N : ℕ} (beta : Option ℝ) :
    Draws (sweepStep lib.exp edges beta) (sweepMatrix lib.exp edges N beta) :=
  Draws.runAll (draws_turnStep hexp beta) (List.finRange N)

theorem sweepMatrix_nonneg (hexp : IsExp lib.exp) {N : ℕ} (beta : Option ℝ) (s t : Bits N) :
    0 ≤ sweepMatrix lib.exp edges N beta s t :=
  ((draws_sweepStep hexp beta).yields s).nonneg t

theorem keeps_sweepMatrix (hexp : IsExp lib.exp) {N : ℕ} {beta : ℝ} (hbeta : 0 ≤ beta) :
    Keeps (fun s : Bits N => boltzmann lib.exp beta (energyOf edges s))
      (sweepMatrix lib.exp edges N (some beta)) :=
  Keeps.prod (List.finRange N) fun i _ => metropolis_keeps hexp hbeta fun s => s.flip_flip i

/-- The configuration after the sweeps, and what is left of the stream. -/
noncomputable def sweepsOf (exp : ℝ → ℝ) (edges : List (EdgeType ℝ)) {N : ℕ}
    (beta : ℕ → Option ℝ) (Ns : ℕ) : Bits N → (ℕ → ℝ) → Bits N × (ℕ → ℝ) :=
  runAll (fun k => sweepStep exp edges (beta k)) (List.range Ns)

/-- The two draws of `dice_roll` and `d_roll`, the throws of `pushSpins`, and the sweeps. -/
noncomputable def runSource (lib : Numerics ℝ (ℕ → ℝ)) (edges : List (EdgeType ℝ)) (N : ℕ)
    (beta : ℕ → Option ℝ) (Ns : ℕ) (g : ℕ → ℝ) : Bits N × (ℕ → ℝ) :=
  let start := readBits lib.binaries N (nextDraw (lib.binaries g).2).2
  sweepsOf lib.exp edges beta Ns start.1 start.2

/-- The law after `Ns` sweeps: a uniform start, and the matrices of the sweeps. -/
noncomputable def annealedLaw (exp : ℝ → ℝ) (edges : List (EdgeType ℝ)) (N : ℕ)
    (beta : ℕ → Option ℝ) (Ns : ℕ) : Bits N → ℝ :=
  Matrix.vecMul (fun _ => (1 / (2 : ℕ)) ^ N)
    ((List.range Ns).map fun k => sweepMatrix exp edges N (beta k)).prod

theorem annealedLaw_zero (exp : ℝ → ℝ) (N : ℕ) (beta : ℕ → Option ℝ) (t : Bits N) :
    annealedLaw exp edges N beta 0 t = (1 / 2) ^ N := by
  simp [annealedLaw]

theorem annealedLaw_of_spins {exp : ℝ → ℝ} {N N' : ℕ} (hN : N' = N)
    {beta : ℕ → Option ℝ} {Ns : ℕ}
    {t' : Bits N'} {t : Bits N} (hspins : t'.spins = t.spins) :
    annealedLaw exp edges N' beta Ns t' = annealedLaw exp edges N beta Ns t := by
  subst hN
  rw [Bits.spins_inj.mp hspins]

theorem annealedLaw_succ (exp : ℝ → ℝ) (N : ℕ) (beta : ℕ → Option ℝ) (Ns : ℕ) :
    annealedLaw exp edges N beta (Ns + 1)
      = Matrix.vecMul (annealedLaw exp edges N beta Ns) (sweepMatrix exp edges N (beta Ns)) := by
  rw [annealedLaw, annealedLaw, Matrix.vecMul_vecMul, List.range_succ, List.map_append,
    List.prod_append]
  simp

/-- **The configuration of a run has that law.** -/
theorem yields_runSource (hcoin : FairCoin lib.binaries) (hexp : IsExp lib.exp) (N : ℕ)
    (beta : ℕ → Option ℝ) (Ns : ℕ) :
    Yields (runSource lib edges N beta Ns) (annealedLaw lib.exp edges N beta Ns) := by
  have hstart : Yields (fun g => readBits lib.binaries N (nextDraw (lib.binaries g).2).2)
      fun _ => (1 / (2 : ℕ)) ^ N :=
    (hcoin.readBits N).after_nextDraw.after hcoin
  exact hstart.step (Draws.runAll (fun k => draws_sweepStep hexp (beta k)) (List.range Ns))

/-! ## The program as a chain -/

/-- The code `f` moves the bits and the stream as `step` does, whatever the energy is. -/
def Follows (H : HamiltonianType ℝ)
    (f : Annealing ℝ (ℕ → ℝ) → Exec (Annealing ℝ (ℕ → ℝ)))
    (step : Bits H.size → (ℕ → ℝ) → Bits H.size × (ℕ → ℝ)) : Prop :=
  ∀ E s g, ∃ E', f ⟨g, E, onBits H s⟩ = .ok ⟨(step s g).2, E', onBits H (step s g).1⟩

/-- A loop follows the run of the steps that its turns follow. -/
theorem Follows.runAll {ι : Type} {f : ι → Annealing ℝ (ℕ → ℝ) → Exec (Annealing ℝ (ℕ → ℝ))}
    {step : ι → Bits H.size → (ℕ → ℝ) → Bits H.size × (ℕ → ℝ)}
    (h : ∀ i, Follows H (f i) (step i)) (l : List ι) :
    Follows H (fun st => l.foldlM (fun st i => f i st) st) (RandomStep.runAll step l) := by
  induction l with
  | nil =>
      intro E s g
      exact ⟨E, rfl⟩
  | cons i l ih =>
      intro E s g
      obtain ⟨E₁, hstep⟩ := h i E s g
      obtain ⟨E₂, hrest⟩ := ih E₁ (step i s g).1 (step i s g).2
      refine ⟨E₂, ?_⟩
      simp only [List.foldlM_cons, hstep, ok_bind]
      exact hrest

variable (hI : Incidence H edges) (hn : ∀ e ∈ edges, e.1.Nodup) (hdraws : lib.realnums = nextDraw)

include hI hn hdraws

theorem follows_flipStep (beta : Option ℝ) (i : Fin H.size) :
    Follows H (flipStep lib beta i) (turnStep lib.exp edges beta i) := by
  intro E s g
  cases beta with
  | some beta => exact flipStep_bits hI hn hdraws beta E i s g
  | none =>
      have hon : OnH H (⟨g, E, onBits H s⟩ : Annealing ℝ (ℕ → ℝ)).self := ⟨rfl, rfl, s.isConfig⟩
      have hstep := flipStep_eq hI lib none hon i.isLt
      have hchange : change (spinAt (onBits H s).spins_) edges i
          = energyOf edges (s.flip i) - energyOf edges s := change_eq hn i s
      simp only [hchange] at hstep
      rw [hstep, flipped, accepts, hdraws, turnStep, descentStep]
      by_cases hdown : energyOf edges (s.flip i) - energyOf edges s ≤ 0
      · refine ⟨E + (energyOf edges (s.flip i) - energyOf edges s), ?_⟩
        simp only [if_pos hdown, if_true, onBits, s.spins_flip]
      · refine ⟨E, ?_⟩
        simp only [if_neg hdown, Bool.false_eq_true, if_false]

variable {fuel : ℕ} (hN : H.size < 2 ^ 32) (hf : H.size < fuel)

include hN hf

theorem follows_sweep (beta : Option ℝ) :
    Follows H (sweep fuel lib beta) (sweepStep lib.exp edges beta) := by
  intro E s g
  have hrange : List.range H.size = (List.finRange H.size).map Fin.val := by simp
  have hsize : (onBits H s).N_ = H.size := rfl
  rw [sweep, forUnsigned_eq (by rw [hsize]; exact hN) (by rw [hsize]; exact hf), hsize, hrange,
    List.foldlM_map]
  exact Follows.runAll (follows_flipStep hI hn hdraws beta) (List.finRange H.size) E s g

variable (beta : ℕ → Option ℝ)

/-- **The double loop is a run of sweeps.** -/
theorem follows_anneal {Ns : ℕ} (hNs : Ns < 2 ^ 32) (hfs : Ns < fuel) :
    Follows H (anneal fuel lib beta Ns) (sweepsOf lib.exp edges beta Ns) := by
  intro E s g
  rw [anneal, forUnsigned_eq hNs hfs]
  exact Follows.runAll (fun k => follows_sweep hI hn hdraws hN hf (beta k)) (List.range Ns) E s g

/-- **A run hands back the value of `runSource`.** -/
theorem runWith_bits {Ns : ℕ} (hNs : Ns < 2 ^ 32) (hfs : Ns < fuel) (seed : ℕ) (g : ℕ → ℝ) :
    ∃ r, runWith fuel { lib with seed := fun _ => g } (saSolver H) beta Ns seed
      = .ok r ∧ r.1.spins_ = Bits.spins (runSource lib edges H.size beta Ns g).1 := by
  rw [runSource, ← hdraws]
  obtain ⟨s, g₁, hstart⟩ : ∃ (s : Bits H.size) (g₁ : ℕ → ℝ),
      readBits lib.binaries H.size (lib.realnums (lib.binaries g).2).2 = (s, g₁) := ⟨_, _, rfl⟩
  have hpush : pushSpins fuel { lib with seed := fun _ => g } H.size []
      (lib.realnums (lib.binaries g).2).2 = .ok (s.spins, g₁) := by
    have h := pushSpins_bits { lib with seed := fun _ => g } hN hf
      (lib.realnums (lib.binaries g).2).2
    rwa [hstart] at h
  have henergy : computeEnergy fuel (onBits H s) = .ok (energyOf edges s) :=
    computeEnergy_spec hI s.isConfig hN hf
  obtain ⟨E, hanneal⟩ : ∃ E, anneal fuel { lib with seed := fun _ => g }
      beta Ns ⟨g₁, energyOf edges s, onBits H s⟩
      = .ok ⟨(sweepsOf lib.exp edges beta Ns s g₁).2, E,
          onBits H (sweepsOf lib.exp edges beta Ns s g₁).1⟩ :=
    follows_anneal hI hn hdraws hN hf beta hNs hfs _ s g₁
  rw [hstart]
  refine ⟨({ E_ := E, spins_ := (sweepsOf lib.exp edges beta Ns s g₁).1.spins }, saSolver H), ?_,
    rfl⟩
  rw [runWith]
  exact bind_eq_ok.mpr ⟨_, hpush, bind_eq_ok.mpr ⟨_, henergy, bind_eq_ok.mpr ⟨_, hanneal, rfl⟩⟩⟩

/-- The streams on which a run hands back `t`. -/
theorem setOf_runWith {Ns : ℕ} (hNs : Ns < 2 ^ 32) (hfs : Ns < fuel) (seed : ℕ)
    (t : Bits H.size) :
    {g | ∃ r, runWith fuel { lib with seed := fun _ => g } (saSolver H) beta Ns seed = .ok r ∧
        r.1.spins_ = t.spins}
      = {g | (runSource lib edges H.size beta Ns g).1 = t} := by
  ext g
  obtain ⟨r, hr, hspins⟩ := runWith_bits hI hn hdraws hN hf beta hNs hfs seed g
  simp only [Set.mem_ofPred_eq, hr, Except.ok.injEq, exists_eq_left', hspins, Bits.spins_inj]

/-- The probabilities of the run are those of the source. -/
theorem runProb_eq (hcoin : FairCoin lib.binaries) (hexp : IsExp lib.exp) {Ns : ℕ}
    (hNs : Ns < 2 ^ 32) (hfs : Ns < fuel) (seed : ℕ) :
    runProb fuel lib beta H Ns seed = annealedLaw lib.exp edges H.size beta Ns := by
  funext t
  rw [← (yields_runSource hcoin hexp H.size beta Ns).prob t, runProb,
    setOf_runWith hI hn hdraws hN hf beta hNs hfs]

end Program

/-! ## The run as a chain -/

/-- **The law of an annealing run.** On the Hamiltonian of a file whose lines repeat no
site, with any values of `beta`: without a sweep every configuration comes out with the
same probability; the probabilities always add up to one; one more sweep, at a `beta` that is
a number, moves the law by the probabilities of that sweep, and where that number is not
negative it never takes the law further from the Boltzmann law of `compute_energy`. -/
theorem run_law {stod : Str → Option ℝ} {text : Str} {buildFuel : ℕ} {H : HamiltonianType ℝ}
    (hbuild : hamiltonianType buildFuel stod text = .ok H) (honce : NoSiteTwice text)
    {lib : Numerics ℝ (ℕ → ℝ)} (hdraws : lib.realnums = nextDraw)
    (hcoin : FairCoin lib.binaries) (hexp : IsExp lib.exp) (beta : ℕ → Option ℝ) {fuel Ns : ℕ}
    (hN : H.size < 2 ^ 32) (hf : H.size < fuel) (hNs : Ns + 1 < 2 ^ 32) (hfs : Ns + 1 < fuel)
    (seed : ℕ) :
    (∀ t, runProb fuel lib beta H 0 seed t = (1 / 2) ^ H.size) ∧
    ∑ t, runProb fuel lib beta H Ns seed t = 1 ∧
    ∀ b, beta Ns = some b →
      (∀ E t, runProb fuel lib beta H (Ns + 1) seed t
        = ∑ s, runProb fuel lib beta H Ns seed s * sweepProb fuel lib b H E s t) ∧
      ∀ (Z : ℝ) (w : Bits H.size → ℝ), 0 ≤ b →
        (∀ s, ∃ E, computeEnergy fuel (onBits H s) = .ok E ∧ w s = lib.exp (-b * E) / Z) →
        ∑ t, |runProb fuel lib beta H (Ns + 1) seed t - w t|
          ≤ ∑ t, |runProb fuel lib beta H Ns seed t - w t| := by
  obtain ⟨hsize, hI⟩ := (hamiltonianType_built buildFuel stod text).of_ok hbuild
  have hn : ∀ e ∈ edgesOf (couplingLines stod text), e.1.Nodup := fun e he =>
    nodup_of_mem_edgesOf honce (by omega) he
  have hlaw : ∀ n, n < 2 ^ 32 → n < fuel → runProb fuel lib beta H n seed
      = annealedLaw lib.exp (edgesOf (couplingLines stod text)) H.size beta n :=
    fun n hn32 hnf => runProb_eq hI hn hdraws hN hf beta hcoin hexp hn32 hnf seed
  rw [hlaw 0 (by omega) (by omega), hlaw Ns (by omega) (by omega), hlaw (Ns + 1) hNs hfs,
    annealedLaw_succ]
  refine ⟨annealedLaw_zero lib.exp H.size beta,
    (yields_runSource hcoin hexp H.size beta Ns).sum_eq_one, ?_⟩
  intro b hb
  rw [hb]
  constructor
  · intro E t
    apply Finset.sum_congr rfl
    intro s _
    rw [sweepProb_eq hI hn hdraws b hexp hN hf E]
    rfl
  · intro Z w hbeta hw
    have hweight : w = fun s => Z⁻¹ * boltzmann lib.exp b
        (energyOf (edgesOf (couplingLines stod text)) s) := by
      funext s
      obtain ⟨E, hE, hws⟩ := hw s
      rw [onBits, computeEnergy_spec hI s.isConfig hN hf] at hE
      rw [hws, ← Except.ok.inj hE, div_eq_inv_mul]
      rfl
    rw [hweight]
    exact ((keeps_sweepMatrix hexp hbeta).const_mul Z⁻¹).contracts
      (sweepMatrix_nonneg hexp (some b)) (draws_sweepStep hexp (some b)).sum_row _

/-- Real couplings, a stream of draws, a coin thrown with each draw, and the real
exponential. -/
noncomputable def coinLib : Numerics ℝ (ℕ → ℝ) := { realLib with binaries := halfCoin }

theorem isExp_coinLib : IsExp coinLib.exp :=
  ⟨Real.exp_pos, Real.exp_add, Real.exp_monotone⟩

section Built

variable {text : Str} {names : List Str}
  (hlines : ∀ line ∈ getlines '\n' text, admitted line = true →
    (tokens line).dropLast.length < 6 ∧ ∀ x ∈ (tokens line).dropLast, x ∈ names)

include hlines

/-- The names on a line, whatever the couplings are. -/
theorem names_on_line {stod : Str → Option ℝ} {l : List Str × ℝ} (hl : l ∈ couplingLines stod text) :
    l.1.length < 6 ∧ ∀ x ∈ l.1, x ∈ names := by
  obtain ⟨line, hline, hadm, hl⟩ := exists_of_mem_couplingLines hl
  rw [hl]
  exact hlines line hline hadm

theorem siteNames_subset (stod : Str → Option ℝ) : siteNames (couplingLines stod text) ⊆ names := by
  intro x hx
  obtain ⟨l, hl, hx⟩ := mem_siteNames.mp hx
  exact (names_on_line hlines hl).2 x hx

/-- The constructor returns, with no more sites than there are names. -/
theorem exists_built (hnum : AllNumeric stodReal text) :
    ∃ H, hamiltonianType 6 stodReal text = .ok H ∧ H.size ≤ names.length := by
  have hshort : ∀ l ∈ couplingLines stodReal text, l.1.length < 2 ^ 32 ∧ l.1.length < 6 := by
    intro l hl
    have := (names_on_line hlines hl).1
    omega
  obtain ⟨-, H, -, hH⟩ := hamiltonianType_returns hnum hshort
  obtain ⟨hsize, -⟩ := (hamiltonianType_built 6 stodReal text).of_ok hH
  refine ⟨H, hH, ?_⟩
  rw [hsize]
  exact ((nodup_siteNames _).subperm (siteNames_subset hlines stodReal)).length_le

end Built

/-- The sample lattice with real couplings, cooled down from sweep to sweep. -/
theorem run_law_sample :
    ∃ H, ∃ w : Bits H.size → ℝ, hamiltonianType 6 stodReal sampleText = .ok H ∧
      (∀ s, 0 < w s) ∧ ∑ s, w s = 1 ∧
      ∑ t, |runProb 6 coinLib (fun k => some k) H 3 7 t - w t|
        ≤ ∑ t, |runProb 6 coinLib (fun k => some k) H 2 7 t - w t| := by
  have hnum : AllNumeric stodReal sampleText := by
    unfold AllNumeric stodReal
    decide
  have honce : NoSiteTwice sampleText := by
    unfold NoSiteTwice
    decide
  have hlines : ∀ line ∈ getlines '\n' sampleText, admitted line = true →
      (tokens line).dropLast.length < 6 ∧ ∀ x ∈ (tokens line).dropLast,
        x ∈ ["4", "5", "6", "7", "9"].map String.toList := by decide
  obtain ⟨H, hH, hsize⟩ := exists_built hlines hnum
  have hfive : H.size ≤ 5 := hsize
  obtain ⟨-, hI⟩ := (hamiltonianType_built 6 stodReal sampleText).of_ok hH
  let E : Bits H.size → ℝ := energyOf (edgesOf (couplingLines stodReal sampleText))
  have hZ : 0 < ∑ s, Real.exp (-(2 : ℕ) * E s) :=
    Finset.sum_pos (fun s _ => Real.exp_pos _) Finset.univ_nonempty
  refine ⟨H, fun s => Real.exp (-(2 : ℕ) * E s) / ∑ s, Real.exp (-(2 : ℕ) * E s), hH,
    fun s => div_pos (Real.exp_pos _) hZ, ?_, ?_⟩
  · rw [← Finset.sum_div, div_self hZ.ne']
  · have hlaw := run_law hH honce rfl fairCoin_halfCoin isExp_coinLib (fun k => some k)
      (by omega) (by omega : H.size < 6) (by decide : 2 + 1 < 2 ^ 32) (by decide) 7
    exact (hlaw.2.2 (2 : ℕ) rfl).2 _ _ (Nat.cast_nonneg 2) fun s =>
      ⟨_, computeEnergy_spec hI s.isConfig (by omega) (by omega), rfl⟩

/-! ## A change of gauge -/

/-- A bit added twice is gone. -/
theorem Bits.add_add {N : ℕ} (b : Bits N) :
    Function.Involutive fun (s : Bits N) i => s i + b i := by
  have hbit : ∀ x y : Fin 2, x + y + y = x := by decide
  intro s
  funext i
  exact hbit (s i) (b i)

/-- The bits of `b` turn spins over. -/
def Bits.gauge {N : ℕ} (b : Bits N) : Bits N ≃ Bits N := b.add_add.toPerm

section Gauge

variable {N : ℕ} (b : Bits N)

theorem Bits.spins_gauge (s : Bits N) : (b.gauge s).spins = gaugeSpins b.spins s.spins := by
  have hbit : ∀ x y : Fin 2, ((x + y : Fin 2) : ℕ) = (x : ℕ) ^^^ (y : ℕ) := by decide
  apply List.ext_getElem (by simp [Bits.spins, gaugeSpins])
  intro a ha ha'
  simp [Bits.spins, gaugeSpins, Bits.gauge, hbit]

theorem Bits.flip_gauge (i : Fin N) (s : Bits N) : (b.gauge s).flip i = b.gauge (s.flip i) := by
  have hbit : ∀ x y : Fin 2, 1 - (x + y) = 1 - x + y := by decide
  funext a
  by_cases ha : a = i
  · subst ha
    simp [Bits.flip, Bits.gauge, hbit]
  · simp [Bits.flip, Bits.gauge, ha]

theorem energyOf_gauge (edges : List (EdgeType ℝ)) (s : Bits N) :
    energyOf (edges.map (gauged (gaugeAt b.spins))) (b.gauge s) = energyOf edges s := by
  rw [energyOf, b.spins_gauge, spinAt_gaugeSpins b.isConfig s.isConfig,
    sharedEnergy_gauged (gaugeAt_isIsing b.isConfig), energyOf]

/-- On couplings of an even number of sites nothing is left of a gauge by ones. -/
theorem gauged_one {edges : List (EdgeType ℝ)} (hlt : ∀ e ∈ edges, ∀ a ∈ e.1, a < N)
    (heven : ∀ e ∈ edges, Even e.1.length) :
    edges.map (gauged (gaugeAt (1 : Bits N).spins)) = edges := by
  have hone : ∀ a < N, gaugeAt (1 : Bits N).spins a = (-1 : ℝ) := by
    intro a ha
    have hbit : (1 : Bits N).spins.getD a 0 = 1 := Bits.getD_spins 1 ⟨a, ha⟩
    rw [gaugeAt, hbit]
    norm_num
  calc edges.map (gauged (gaugeAt (1 : Bits N).spins))
      = edges.map id := by
        apply List.map_congr_left
        intro e he
        have hsign : corr (gaugeAt (1 : Bits N).spins) e.1 = (1 : ℝ) := by
          rw [corr_congr fun a ha => hone a (hlt e he a ha), corr, List.map_const',
            List.prod_replicate, (heven e he).neg_one_pow]
        rw [gauged, hsign, mul_one, id]
    _ = edges := List.map_id edges

variable {edges edges' : List (EdgeType ℝ)}
  (hE : ∀ s, energyOf edges' (b.gauge s) = energyOf edges s)

include hE

theorem turnMatrix_gauge (exp : ℝ → ℝ) (beta : Option ℝ) (i : Fin N) :
    (turnMatrix exp edges' beta i).submatrix b.gauge b.gauge = turnMatrix exp edges beta i :=
  ruled_submatrix b.gauge (b.flip_gauge i) hE

theorem sweepMatrix_gauge (exp : ℝ → ℝ) (beta : Option ℝ) :
    (sweepMatrix exp edges' N beta).submatrix b.gauge b.gauge = sweepMatrix exp edges N beta :=
  submatrix_prod b.gauge (turnMatrix_gauge b hE exp beta) (List.finRange N)

theorem annealedLaw_gauge (exp : ℝ → ℝ) (beta : ℕ → Option ℝ) (Ns : ℕ) (t : Bits N) :
    annealedLaw exp edges' N beta Ns (b.gauge t) = annealedLaw exp edges N beta Ns t := by
  have hprod : (((List.range Ns).map fun k => sweepMatrix exp edges' N (beta k)).prod).submatrix
      b.gauge b.gauge = ((List.range Ns).map fun k => sweepMatrix exp edges N (beta k)).prod :=
    submatrix_prod b.gauge (fun k => sweepMatrix_gauge b hE exp (beta k)) (List.range Ns)
  rw [annealedLaw, annealedLaw, ← hprod, Matrix.submatrix_vecMul_equiv]
  rfl

end Gauge

/-- **The law of a run does not see a change of gauge.** On the Hamiltonian of a file whose
lines repeat no site, for every schedule and number of sweeps: a configuration comes out on
`H` as often as its image by the gauge comes out on `H^g`. In particular, where every line
has an even number of sites, a configuration and its mirror image, all spins turned over,
come out equally often on `H`. -/
theorem run_law_gauge {stod : Str → Option ℝ} {text : Str} {buildFuel : ℕ}
    {H : HamiltonianType ℝ} (hbuild : hamiltonianType buildFuel stod text = .ok H)
    (honce : NoSiteTwice text) {lib : Numerics ℝ (ℕ → ℝ)} (hdraws : lib.realnums = nextDraw)
    (hcoin : FairCoin lib.binaries) (hexp : IsExp lib.exp) (beta : ℕ → Option ℝ)
    {fuel Ns : ℕ} (hN : H.size < 2 ^ 32) (hf : H.size < fuel) (hNs : Ns < 2 ^ 32) (hfs : Ns < fuel)
    (seed : ℕ) (t : Bits H.size) :
    (∀ (b : Bits H.size) (t' : Bits (gaugeHamiltonian b.spins H).size),
      t'.spins = gaugeSpins b.spins t.spins →
      runProb fuel lib beta (gaugeHamiltonian b.spins H) Ns seed t'
        = runProb fuel lib beta H Ns seed t) ∧
    ((∀ l ∈ couplingLines stod text, Even l.1.length) →
      runProb fuel lib beta H Ns seed (fun i => 1 - t i)
        = runProb fuel lib beta H Ns seed t) := by
  obtain ⟨hsize, hI⟩ := (hamiltonianType_built buildFuel stod text).of_ok hbuild
  have hn : ∀ e ∈ edgesOf (couplingLines stod text), e.1.Nodup := fun e he =>
    nodup_of_mem_edgesOf honce (by omega) he
  rw [runProb_eq hI hn hdraws hN hf beta hcoin hexp hNs hfs seed]
  constructor
  · intro b t' ht'
    have hsize' : (gaugeHamiltonian b.spins H).size = H.size := gaugeHamiltonian_size b.spins
    have hn' : ∀ e ∈ (edgesOf (couplingLines stod text)).map (gauged (gaugeAt b.spins)),
        e.1.Nodup := by
      intro e he
      obtain ⟨e, he', rfl⟩ := List.mem_map.mp he
      exact hn e he'
    rw [runProb_eq (hI.gauge b.spins) hn' hdraws (by rw [hsize']; exact hN)
      (by rw [hsize']; exact hf) beta hcoin hexp hNs hfs seed,
      annealedLaw_of_spins hsize' (ht'.trans (b.spins_gauge t).symm)]
    exact annealedLaw_gauge b (energyOf_gauge b _) lib.exp beta Ns t
  · intro heven
    have hmirror : (fun i => 1 - t i) = Bits.gauge 1 t := by
      have hbit : ∀ x : Fin 2, 1 - x = x + 1 := by decide
      funext i
      exact hbit (t i)
    have heven' : ∀ e ∈ edgesOf (couplingLines stod text), Even e.1.length := by
      intro e he
      obtain ⟨l, hl, rfl⟩ := List.mem_map.mp (mem_of_mem_keepFirst he)
      simpa [numbered] using heven l hl
    have hone := gauged_one hI.sites_lt heven'
    have henergy := energyOf_gauge (1 : Bits H.size) (edgesOf (couplingLines stod text))
    rw [hone] at henergy
    rw [hmirror]
    exact annealedLaw_gauge 1 henergy lib.exp beta Ns t

/-- A ring of four sites, with one bond of the other sign. -/
def ringText : Str := "1 2 1\n2 3 1\n3 4 1\n1 4 -1\n".toList

theorem noSiteTwice_ring : NoSiteTwice ringText := by
  unfold NoSiteTwice
  decide

theorem ring_lines : ∀ line ∈ getlines '\n' ringText, admitted line = true →
    (tokens line).dropLast.length < 6 ∧ ∀ x ∈ (tokens line).dropLast,
      x ∈ ["1", "2", "3", "4"].map String.toList := by decide

theorem exists_ringReal : ∃ H, hamiltonianType 6 stodReal ringText = .ok H ∧ H.size ≤ 4 := by
  apply exists_built ring_lines
  unfold AllNumeric stodReal
  decide

/-- On the ring a configuration and its mirror image come out equally often. -/
theorem run_law_gauge_sample :
    ∃ H, hamiltonianType 6 stodReal ringText = .ok H ∧
      ∀ t : Bits H.size, runProb 6 coinLib (fun k => some k) H 4 7 (fun i => 1 - t i)
        = runProb 6 coinLib (fun k => some k) H 4 7 t := by
  have htwo : ∀ line ∈ getlines '\n' ringText, Even (tokens line).dropLast.length := by decide
  have heven : ∀ l ∈ couplingLines stodReal ringText, Even l.1.length := by
    intro l hl
    obtain ⟨line, hline, -, hl⟩ := exists_of_mem_couplingLines hl
    rw [hl]
    exact htwo line hline
  obtain ⟨H, hH, hfour⟩ := exists_ringReal
  exact ⟨H, hH, fun t => (run_law_gauge hH noSiteTwice_ring rfl fairCoin_halfCoin isExp_coinLib
    (fun k => some k) (by omega) (by omega) (by decide) (by decide) 7 t).2 heven⟩

end SpinGlass
