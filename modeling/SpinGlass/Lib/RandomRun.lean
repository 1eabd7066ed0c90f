import SpinGlass.Lib.RandomStep

/-!
# RandomRun — the law of a run with a random start

A source reads a value off the stream of independent uniform draws.
`Yields source μ` says that the value has the law `μ` and that what is left
is a fresh stream whatever the value is: a step of `RandomStep` from a fixed
state is such a source. Fair coins that are thrown one after the other give
the uniform law on the bits (`FairCoin.readBits`), a step after a source moves its
law by the matrix of the step (`Yields.step`), and a matrix that keeps a
weight never takes a law further from it (`Keeps.contracts`).
-/

namespace RandomStep

open MeasureTheory

/-! ## Sources -/

section Source

variable {S : Type*} {source : (ℕ → ℝ) → S × (ℕ → ℝ)} {μ : S → ℝ}

/-- The value of `source` has the law `μ`, and a fresh stream is left. -/
structure Yields (source : (ℕ → ℝ) → S × (ℕ → ℝ)) (μ : S → ℝ) : Prop where
  measurable : ∀ t B, MeasurableSet B → MeasurableSet {g | (source g).1 = t ∧ (source g).2 ∈ B}
  law : ∀ t B, MeasurableSet B →
    streamLaw.real {g | (source g).1 = t ∧ (source g).2 ∈ B} = μ t * streamLaw.real B

theorem Draws.yields {step : S → (ℕ → ℝ) → S × (ℕ → ℝ)} {P : Matrix S S ℝ}
    (h : Draws step P) (s : S) : Yields (step s) (P s) :=
  ⟨h.measurable s, h.law s⟩

theorem Yields.draws (h : Yields source μ) : Draws (fun (_ : S) => source) (fun _ => μ) :=
  ⟨fun _ => h.measurable, fun _ => h.law⟩

theorem Yields.prob (h : Yields source μ) (t : S) :
    streamLaw.real {g | (source g).1 = t} = μ t := by
  have hall := h.law t Set.univ MeasurableSet.univ
  simpa using hall

theorem Yields.nonneg (h : Yields source μ) (t : S) : 0 ≤ μ t := by
  rw [← h.prob t]
  exact measureReal_nonneg

theorem Yields.sum_eq_one [Fintype S] [Nonempty S] (h : Yields source μ) : ∑ t, μ t = 1 :=
  h.draws.sum_row (Classical.arbitrary S)

/-- A draw whose value nothing reads changes no law. -/
theorem Yields.after_nextDraw (h : Yields source μ) : Yields (fun g => source (nextDraw g).2) μ := by
  have hset : ∀ (t : S) (B : Set (ℕ → ℝ)),
      {g | (source (nextDraw g).2).1 = t ∧ (source (nextDraw g).2).2 ∈ B}
      = {g | (nextDraw g).1 ∈ Set.univ ∧
          (nextDraw g).2 ∈ {g | (source g).1 = t ∧ (source g).2 ∈ B}} := by
    intro t B
    ext g
    simp
  constructor
  · intro t B hB
    rw [hset]
    exact measurableSet_nextDraw MeasurableSet.univ (h.measurable t B hB)
  · intro t B hB
    rw [hset, streamLaw_nextDraw MeasurableSet.univ (h.measurable t B hB), h.law t B hB,
      probReal_univ, one_mul]

/-- **A source that is chosen by the value of another one**: the law of total probability. -/
theorem Yields.bind {T : Type*} [Fintype S] (h : Yields source μ)
    {next : S → (ℕ → ℝ) → T × (ℕ → ℝ)} {ν : S → T → ℝ} (hnext : ∀ s, Yields (next s) (ν s)) :
    Yields (fun g => next (source g).1 (source g).2) fun t => ∑ s, μ s * ν s t := by
  have hsplit : ∀ (t : T) (B : Set (ℕ → ℝ)),
      {g | (next (source g).1 (source g).2).1 = t ∧ (next (source g).1 (source g).2).2 ∈ B}
      = ⋃ s ∈ (Finset.univ : Finset S), {g | (source g).1 = s ∧
          (source g).2 ∈ {g | (next s g).1 = t ∧ (next s g).2 ∈ B}} := by
    intro t B
    ext g
    simp
  have hmeas : ∀ (t : T) (B : Set (ℕ → ℝ)), MeasurableSet B → ∀ s,
      MeasurableSet {g | (source g).1 = s ∧
        (source g).2 ∈ {g | (next s g).1 = t ∧ (next s g).2 ∈ B}} := fun t B hB s =>
    h.measurable s _ ((hnext s).measurable t B hB)
  constructor
  · intro t B hB
    rw [hsplit]
    exact Finset.measurableSet_biUnion _ fun s _ => hmeas t B hB s
  · intro t B hB
    have hdisj : Set.PairwiseDisjoint (Finset.univ : Finset S) fun s => {g | (source g).1 = s ∧
        (source g).2 ∈ {g | (next s g).1 = t ∧ (next s g).2 ∈ B}} := by
      intro s _ s' _ hne
      apply Set.disjoint_left.mpr
      intro g hg hg'
      exact hne (hg.1.symm.trans hg'.1)
    rw [hsplit, measureReal_biUnion_finset hdisj fun s _ => hmeas t B hB s, Finset.sum_mul]
    apply Finset.sum_congr rfl
    intro s _
    rw [h.law s _ ((hnext s).measurable t B hB), (hnext s).law t B hB, mul_assoc]

/-- A value that nothing reads changes no law. -/
theorem Yields.after {T : Type*} [Fintype T] [Nonempty T] (h : Yields source μ)
    {first : (ℕ → ℝ) → T × (ℕ → ℝ)} {ν : T → ℝ} (hfirst : Yields first ν) :
    Yields (fun g => source (first g).2) μ := by
  have hlaw : (fun t => ∑ s, ν s * μ t) = μ := by
    funext t
    rw [← Finset.sum_mul, hfirst.sum_eq_one, one_mul]
  rw [← hlaw]
  exact hfirst.bind fun _ => h

/-- A step after a source moves the law by its matrix. -/
theorem Yields.step [Fintype S] (h : Yields source μ) {step : S → (ℕ → ℝ) → S × (ℕ → ℝ)}
    {P : Matrix S S ℝ} (hstep : Draws step P) :
    Yields (fun g => step (source g).1 (source g).2) (Matrix.vecMul μ P) :=
  h.bind hstep.yields

end Source

/-! ## Coins -/

/-- `coin` throws a fair coin. -/
def FairCoin (coin : (ℕ → ℝ) → Fin 2 × (ℕ → ℝ)) : Prop := Yields coin fun _ => 1 / (2 : ℕ)

/-- `N` throws of the coin, in their order. -/
def readBits (coin : (ℕ → ℝ) → Fin 2 × (ℕ → ℝ)) : (N : ℕ) → (ℕ → ℝ) → (Fin N → Fin 2) × (ℕ → ℝ)
  | 0, g => (Fin.elim0, g)
  | N + 1, g =>
      (Fin.snoc (readBits coin N g).1 (coin (readBits coin N g).2).1,
        (coin (readBits coin N g).2).2)

section Coin

variable {coin : (ℕ → ℝ) → Fin 2 × (ℕ → ℝ)}

theorem FairCoin.readBits (h : FairCoin coin) (N : ℕ) :
    Yields (readBits coin N) fun _ => (1 / (2 : ℕ)) ^ N := by
  induction N with
  | zero =>
      have hset : ∀ (t : Fin 0 → Fin 2) (B : Set (ℕ → ℝ)),
          {g | (RandomStep.readBits coin 0 g).1 = t ∧ (RandomStep.readBits coin 0 g).2 ∈ B} = B := by
        intro t B
        ext g
        simp [RandomStep.readBits, Subsingleton.elim t Fin.elim0]
      constructor
      · intro t B hB
        rw [hset]
        exact hB
      · intro t B hB
        rw [hset, pow_zero, one_mul]
  | succ N ih =>
      have hset : ∀ (t : Fin (N + 1) → Fin 2) (B : Set (ℕ → ℝ)),
          {g | (RandomStep.readBits coin (N + 1) g).1 = t
              ∧ (RandomStep.readBits coin (N + 1) g).2 ∈ B}
            = {g | (RandomStep.readBits coin N g).1 = Fin.init t
              ∧ (RandomStep.readBits coin N g).2
                ∈ {g | (coin g).1 = t (Fin.last N) ∧ (coin g).2 ∈ B}} := by
        intro t B
        ext g
        have hsnoc : ∀ (a : Fin N → Fin 2) (b : Fin 2),
            (Fin.snoc a b : Fin (N + 1) → Fin 2) = t ↔ a = Fin.init t ∧ b = t (Fin.last N) := by
          intro a b
          constructor
          · rintro rfl
            simp
          · rintro ⟨rfl, rfl⟩
            exact Fin.snoc_init_self t
        simp only [RandomStep.readBits, Set.mem_ofPred_eq, hsnoc, and_assoc]
      constructor
      · intro t B hB
        rw [hset]
        exact ih.measurable _ _ (h.measurable _ B hB)
      · intro t B hB
        rw [hset, ih.law _ _ (h.measurable _ B hB), h.law _ B hB, pow_succ, mul_assoc]

/-- A uniform draw against one half. -/
noncomputable def halfCoin (g : ℕ → ℝ) : Fin 2 × (ℕ → ℝ) :=
  (finTwoEquiv.symm (decide (1 / (2 : ℕ) ≤ (nextDraw g).1)), (nextDraw g).2)

theorem fairCoin_halfCoin : FairCoin halfCoin := by
  have hhalf : (0 : ℝ) ≤ 1 / (2 : ℕ) := by norm_num
  have hcoin : ∀ g, halfCoin g
      = (if (nextDraw g).1 < 1 / (2 : ℕ) then 0 else 1, (nextDraw g).2) := by
    intro g
    by_cases hg : (nextDraw g).1 < 1 / (2 : ℕ)
    · rw [halfCoin, decide_eq_false (not_le.mpr hg), if_pos hg]
      rfl
    · rw [halfCoin, decide_eq_true (not_lt.mp hg), if_neg hg]
      rfl
  have hlaw : ∀ (t : Fin 2) (B : Set (ℕ → ℝ)), MeasurableSet B →
      MeasurableSet (outcome (fun (_ : Fin 2) => halfCoin) 1 t B) ∧
        streamLaw.real (outcome (fun (_ : Fin 2) => halfCoin) 1 t B)
          = ((if (0 : Fin 2) = t then min (1 / (2 : ℕ) : ℝ) 1 else 0)
            + (if (1 : Fin 2) = t then 1 - min (1 / (2 : ℕ) : ℝ) 1 else 0))
            * streamLaw.real B := by
    intro t B hB
    exact law_of_draw hhalf zero_ne_one (fun g => hcoin g) t hB
  have hfair : ∀ t : Fin 2, ((if (0 : Fin 2) = t then min (1 / (2 : ℕ) : ℝ) 1 else 0)
      + (if (1 : Fin 2) = t then 1 - min (1 / (2 : ℕ) : ℝ) 1 else 0)) = 1 / (2 : ℕ) := by
    intro t
    rw [min_eq_left (by norm_num)]
    fin_cases t <;> norm_num
  constructor
  · intro t B hB
    exact (hlaw t B hB).1
  · intro t B hB
    rw [← hfair t]
    exact (hlaw t B hB).2

end Coin

end RandomStep

/-! ## Rules -/

namespace Metropolis

section Rules

variable {K S : Type*} [Field K] [DecidableEq S]

/-- The matrix of a rule that takes a proposal with a probability `a dE`, `dE` being the change
of the energy. -/
def ruled (a : K → K) (next : S → S) (E : S → K) : Matrix S S K := fun s t =>
  (if next s = t then a (E (next s) - E s) else 0)
    + (if s = t then 1 - a (E (next s) - E s) else 0)

/-- The rule that only goes down. -/
def downhill [LinearOrder K] (dE : K) : K := if dE ≤ 0 then 1 else 0

theorem ruled_row [Fintype S] (a : K → K) (next : S → S) (E : S → K) (s : S) :
    ∑ t, ruled a next E s t = 1 := by
  simp [ruled, Finset.sum_add_distrib]

/-- A rule whose probabilities balance two energies, with proposals that go back and forth. -/
theorem ruled_balanced {a : K → K} {next : S → S} {E w : S → K}
    (hback : ∀ s, next (next s) = s)
    (h : ∀ s t, w s * a (E t - E s) = w t * a (E s - E t)) : Balanced w (ruled a next E) := by
  intro s t
  by_cases hst : s = t
  · rw [hst]
  · by_cases hnext : next s = t
    · have hprev : next t = s := by rw [← hnext, hback]
      simp only [ruled, hnext, hprev, if_true, if_neg hst, if_neg (Ne.symm hst), add_zero]
      exact h s t
    · have hprev : next t ≠ s := fun h => hnext (by rw [← h, hback])
      simp [ruled, hst, Ne.symm hst, hnext, hprev]

/-- Going down keeps the states of lowest energy, each as heavy as the others. -/
theorem downhill_keeps [LinearOrder K] [IsStrictOrderedRing K] [Fintype S] {next : S → S}
    (hback : ∀ s, next (next s) = s) {E : S → K} {E0 : K} (hmin : ∀ s, E0 ≤ E s) :
    Keeps (fun s => if E s = E0 then 1 else 0) (ruled downhill next E) := by
  have hup : ∀ {s t}, E s = E0 → E t ≠ E0 → downhill (E t - E s) = 0 := by
    intro s t hs ht
    rw [downhill, if_neg]
    rw [sub_nonpos, hs, not_le]
    exact lt_of_le_of_ne (hmin t) (Ne.symm ht)
  apply Balanced.keeps _ (ruled_row downhill next E)
  apply ruled_balanced hback
  intro s t
  by_cases hs : E s = E0
  · by_cases ht : E t = E0
    · rw [hs, ht]
    · rw [hup hs ht, if_neg ht, mul_zero, zero_mul]
  · by_cases ht : E t = E0
    · rw [hup ht hs, if_neg hs, mul_zero, zero_mul]
    · rw [if_neg hs, if_neg ht, zero_mul, zero_mul]

end Rules

end Metropolis

namespace RandomStep

open MeasureTheory Metropolis

/-- The step of the rule that only goes down: upwards a draw is made, and not looked at. -/
noncomputable def descentStep {S : Type*} (next : S → S) (E : S → ℝ) (s : S) (g : ℕ → ℝ) :
    S × (ℕ → ℝ) :=
  if E (next s) - E s ≤ 0 then (next s, g) else (s, (nextDraw g).2)

theorem draws_descentStep {S : Type*} [DecidableEq S] (next : S → S) (E : S → ℝ) :
    Draws (descentStep next E) (ruled downhill next E) := by
  have hlaw : ∀ s t B, MeasurableSet B → MeasurableSet (outcome (descentStep next E) s t B) ∧
      streamLaw.real (outcome (descentStep next E) s t B)
        = ruled downhill next E s t * streamLaw.real B := by
    intro s t B hB
    by_cases hdown : E (next s) - E s ≤ 0
    · have hstep : ∀ g, descentStep next E s g = (next s, g) := fun g => if_pos hdown
      simpa [ruled, downhill, hdown] using law_of_sure hstep t hB
    · have hstep : ∀ g, descentStep next E s g = (s, (nextDraw g).2) := fun g => if_neg hdown
      have hentry : ruled downhill next E s t = if s = t then 1 else 0 := by
        simp [ruled, downhill, hdown]
      rw [hentry]
      by_cases hst : s = t
      · subst hst
        have hset : outcome (descentStep next E) s s B
            = {g | (nextDraw g).1 ∈ Set.univ ∧ (nextDraw g).2 ∈ B} := by
          ext g
          simp [outcome, hstep]
        rw [hset, streamLaw_nextDraw MeasurableSet.univ hB, probReal_univ, if_pos rfl]
        exact ⟨measurableSet_nextDraw MeasurableSet.univ hB, rfl⟩
      · have hset : outcome (descentStep next E) s t B = ∅ := by
          ext g
          simp [outcome, hstep, hst]
        simp [hset, hst]
  constructor
  · intro s t B hB
    exact (hlaw s t B hB).1
  · intro s t B hB
    exact (hlaw s t B hB).2

end RandomStep

/-! ## Laws and matrices -/

namespace Metropolis

section Laws

variable {S : Type*} [Fintype S] {w : S → ℝ} {P : Matrix S S ℝ}

theorem Keeps.const_mul (hkeeps : Keeps w P) (c : ℝ) : Keeps (fun s => c * w s) P := by
  intro t
  calc ∑ s, c * w s * P s t
      = c * ∑ s, w s * P s t := by
        rw [Finset.mul_sum]
        exact Finset.sum_congr rfl fun s _ => mul_assoc _ _ _
    _ = c * w t := by rw [hkeeps t]

/-- **A matrix that keeps a weight takes no law further from it.** -/
theorem Keeps.contracts (hkeeps : Keeps w P) (hpos : ∀ s t, 0 ≤ P s t)
    (hrow : ∀ s, ∑ t, P s t = 1) (μ : S → ℝ) :
    ∑ t, |Matrix.vecMul μ P t - w t| ≤ ∑ s, |μ s - w s| := by
  have hdiff : ∀ t, Matrix.vecMul μ P t - w t = ∑ s, (μ s - w s) * P s t := by
    intro t
    rw [← hkeeps t, Matrix.vecMul, dotProduct, ← Finset.sum_sub_distrib]
    exact Finset.sum_congr rfl fun s _ => (sub_mul _ _ _).symm
  calc ∑ t, |Matrix.vecMul μ P t - w t|
      = ∑ t, |∑ s, (μ s - w s) * P s t| := by simp only [hdiff]
    _ ≤ ∑ t, ∑ s, |(μ s - w s) * P s t| :=
        Finset.sum_le_sum fun t _ => Finset.abs_sum_le_sum_abs _ _
    _ = ∑ s, ∑ t, |μ s - w s| * P s t := by
        rw [Finset.sum_comm]
        simp only [abs_mul, abs_of_nonneg (hpos _ _)]
    _ = ∑ s, |μ s - w s| := by
        simp only [← Finset.mul_sum, hrow, mul_one]

/-- A law above a weight that the matrix keeps stays above it. -/
theorem Keeps.le_vecMul (hkeeps : Keeps w P) (hpos : ∀ s t, 0 ≤ P s t) {μ : S → ℝ}
    (hle : ∀ s, w s ≤ μ s) (t : S) : w t ≤ Matrix.vecMul μ P t := by
  calc w t
      = ∑ s, w s * P s t := (hkeeps t).symm
    _ ≤ ∑ s, μ s * P s t :=
        Finset.sum_le_sum fun s _ => mul_le_mul_of_nonneg_right (hle s) (hpos s t)

end Laws

/-! ## Cooling down -/

section Cooling

variable {S : Type*} {exp : ℝ → ℝ} (hexp : IsExp exp)

include hexp

/-- The weight of an energy above `a`, against that of `a`. -/
theorem boltzmann_sub (beta a E : ℝ) :
    boltzmann exp beta (E - a) = exp (beta * a) * boltzmann exp beta E := by
  rw [boltzmann, boltzmann, ← hexp.add]
  congr 1
  ring

theorem boltzmann_anti {b b' E : ℝ} (hb : b ≤ b') (hE : 0 ≤ E) :
    boltzmann exp b' E ≤ boltzmann exp b E := by
  apply hexp.mono
  have := mul_le_mul_of_nonneg_right hb hE
  linarith

/-- **Cooling down loses nothing.** From a law that is nowhere below `c`, along matrices that
keep the Boltzmann weights at values of `beta` that do not fall: the law stays above `c`
times the weight of the energy over its minimum, at the last value. -/
theorem boltzmann_le_of_cooling [Fintype S] [DecidableEq S] {E : S → ℝ} {E0 : ℝ}
    (hE : ∀ s, E0 ≤ E s) {P : ℕ → Matrix S S ℝ} (hpos : ∀ k s t, 0 ≤ P k s t) {beta : ℕ → ℝ}
    (h0 : ∀ k, 0 ≤ beta k) (hmono : Monotone beta)
    (hkeeps : ∀ k, Keeps (fun s => boltzmann exp (beta k) (E s)) (P k)) {μ : S → ℝ} {c : ℝ}
    (hc : 0 ≤ c) (hμ : ∀ s, c ≤ μ s) {n : ℕ} {b : ℝ} (hb0 : 0 ≤ b) (hb : ∀ k < n, beta k ≤ b)
    (t : S) :
    c * boltzmann exp b (E t - E0) ≤ Matrix.vecMul μ ((List.range n).map P).prod t := by
  have hle : ∀ {b b' : ℝ}, b ≤ b' → ∀ s,
      c * boltzmann exp b' (E s - E0) ≤ c * boltzmann exp b (E s - E0) := fun hbb s =>
    mul_le_mul_of_nonneg_left (boltzmann_anti hexp hbb (sub_nonneg.mpr (hE s))) hc
  -- by induction on the steps, the bound at the last value of `beta` carrying it
  induction n generalizing b t with
  | zero =>
      have hone : boltzmann exp 0 (E t - E0) = 1 := by
        rw [boltzmann, neg_zero, zero_mul, hexp.zero]
      calc c * boltzmann exp b (E t - E0)
          ≤ c * boltzmann exp 0 (E t - E0) := hle hb0 t
        _ ≤ μ t := by rw [hone, mul_one]; exact hμ t
        _ = Matrix.vecMul μ ((List.range 0).map P).prod t := by simp
  | succ n ih =>
      have hkept : Keeps (fun s => c * boltzmann exp (beta n) (E s - E0)) (P n) := by
        have h := ((hkeeps n).const_mul (exp (beta n * E0))).const_mul c
        simpa only [boltzmann_sub hexp] using h
      have hbefore : ∀ s, c * boltzmann exp (beta n) (E s - E0)
          ≤ Matrix.vecMul μ ((List.range n).map P).prod s := fun s =>
        ih (h0 n) (fun k hk => hmono hk.le) s
      calc c * boltzmann exp b (E t - E0)
          ≤ c * boltzmann exp (beta n) (E t - E0) := hle (hb n (Nat.lt_succ_self n)) t
        _ ≤ Matrix.vecMul (Matrix.vecMul μ ((List.range n).map P).prod) (P n) t :=
            hkept.le_vecMul (hpos n) hbefore t
        _ = Matrix.vecMul μ ((List.range (n + 1)).map P).prod t := by
            rw [Matrix.vecMul_vecMul, List.range_succ, List.map_append, List.prod_append]
            simp

end Cooling

/-! ## Relabelled states -/

section Relabelling

variable {K S S' : Type*} [Field K] [DecidableEq S] [DecidableEq S'] (σ : S' ≃ S)

/-- A relabelling that keeps the energies and the proposals keeps the matrix. -/
theorem ruled_submatrix {a : K → K} {next : S → S} {next' : S' → S'} {E : S → K} {E' : S' → K}
    (hnext : ∀ s, next (σ s) = σ (next' s)) (hE : ∀ s, E (σ s) = E' s) :
    (ruled a next E).submatrix σ σ = ruled a next' E' := by
  ext s t
  simp only [Matrix.submatrix_apply, ruled, hnext, hE, σ.apply_eq_iff_eq]

theorem submatrix_prod [Fintype S] [Fintype S'] {ι : Type*} {P : ι → Matrix S S K}
    {P' : ι → Matrix S' S' K} (h : ∀ i, (P i).submatrix σ σ = P' i) (l : List ι) :
    (l.map P).prod.submatrix σ σ = (l.map P').prod := by
  induction l with
  | nil => simp
  | cons i l ih =>
      rw [List.map_cons, List.prod_cons, List.map_cons, List.prod_cons,
        ← Matrix.submatrix_mul_equiv _ _ σ σ σ, h i, ih]

end Relabelling

end Metropolis
