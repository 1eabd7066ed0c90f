import SpinGlass.Lib.Metropolis
import Mathlib.Probability.ProductMeasure
import Mathlib.MeasureTheory.Measure.Lebesgue.Basic

/-!
# RandomStep — steps that read a stream of independent uniform draws

The random input of a program is an infinite stream of numbers, distributed
under `streamLaw` as independent uniform draws from `[0, 1)`. A step takes a
state and the stream, and hands back the next state and what is left of the
stream. `Draws step P` says that the next state is distributed by the row of
`P` and that what is left is again a fresh stream, independent of it; this is
what composes (`Draws.comp`). The step of the Metropolis rule reads at most one
draw, and moves by the Metropolis matrix.
-/

namespace RandomStep

open MeasureTheory

/-- The uniform law on `[0, 1)`. -/
noncomputable def unitLaw : Measure ℝ := volume.restrict (Set.Ico 0 1)

instance : IsProbabilityMeasure unitLaw :=
  ⟨by simp [unitLaw]⟩

/-- The law of a stream of independent uniform draws. -/
noncomputable def streamLaw : Measure (ℕ → ℝ) := Measure.infinitePi fun _ => unitLaw

instance : IsProbabilityMeasure streamLaw := by
  unfold streamLaw
  infer_instance

/-- The first draw, and the draws after it. -/
def nextDraw (g : ℕ → ℝ) : ℝ × (ℕ → ℝ) := (g 0, fun n => g (n + 1))

/-! ## The first draw and the rest -/

/-- A draw put in front of a stream. -/
def consDraw (p : ℝ × (ℕ → ℝ)) : ℕ → ℝ
  | 0 => p.1
  | n + 1 => p.2 n

theorem measurable_nextDraw : Measurable nextDraw := by
  unfold nextDraw
  fun_prop

theorem measurable_consDraw : Measurable consDraw := by
  apply measurable_pi_lambda
  intro n
  cases n with
  | zero => exact measurable_fst
  | succ n => exact (measurable_pi_apply n).comp measurable_snd

/-- A uniform draw in front of a stream gives a stream. -/
theorem map_consDraw : (unitLaw.prod streamLaw).map consDraw = streamLaw := by
  apply Measure.eq_infinitePi _
  intro s t ht
  have hbox : Set.preimage consDraw (Set.pi s t)
      = {x | 0 ∈ s → x ∈ t 0} ×ˢ
        Set.pi (s.preimage Nat.succ Nat.succ_injective.injOn : Finset ℕ)
          (fun n => t (n + 1)) := by
    ext p
    simp only [Set.mem_preimage, Set.mem_pi, Set.mem_prod, Set.mem_ofPred_eq, Finset.coe_preimage,
      Finset.mem_coe]
    constructor
    · intro h
      exact ⟨h 0, fun n hn => h (n + 1) hn⟩
    · rintro ⟨h0, hs⟩ n hn
      cases n with
      | zero => exact h0 hn
      | succ n => exact hs n hn
  -- the measure of the box: the first coordinate apart from the others
  have hhead : unitLaw {x | 0 ∈ s → x ∈ t 0} = ∏ n ∈ s with n = 0, unitLaw (t n) := by
    by_cases h0 : 0 ∈ s
    · simp [h0, Finset.filter_eq']
    · simp [h0, Finset.filter_eq']
  have htail : ∏ n ∈ s.preimage Nat.succ Nat.succ_injective.injOn, unitLaw (t (n + 1))
      = ∏ n ∈ s with n ≠ 0, unitLaw (t n) := by
    classical
    rw [Finset.prod_preimage' Nat.succ s Nat.succ_injective.injOn fun n => unitLaw (t n)]
    congr 1
    ext n
    cases n <;> simp
  rw [Measure.map_apply measurable_consDraw (MeasurableSet.pi s.countable_toSet fun n _ => ht n),
    hbox, Measure.prod_prod, streamLaw, Measure.infinitePi_pi _ fun n _ => ht (n + 1), hhead,
    htail, Finset.prod_filter_mul_prod_filter_not]

/-- **The first draw is uniform, and what is left is a fresh stream.** -/
theorem map_nextDraw : streamLaw.map nextDraw = unitLaw.prod streamLaw := by
  calc streamLaw.map nextDraw
      = ((unitLaw.prod streamLaw).map consDraw).map nextDraw := by rw [map_consDraw]
    _ = (unitLaw.prod streamLaw).map (nextDraw ∘ consDraw) :=
        Measure.map_map measurable_nextDraw measurable_consDraw
    _ = (unitLaw.prod streamLaw).map id := rfl
    _ = unitLaw.prod streamLaw := Measure.map_id

theorem measurableSet_nextDraw {A : Set ℝ} {B : Set (ℕ → ℝ)} (hA : MeasurableSet A)
    (hB : MeasurableSet B) :
    MeasurableSet {g | (nextDraw g).1 ∈ A ∧ (nextDraw g).2 ∈ B} :=
  measurable_nextDraw (hA.prod hB)

theorem streamLaw_nextDraw {A : Set ℝ} {B : Set (ℕ → ℝ)} (hA : MeasurableSet A)
    (hB : MeasurableSet B) :
    streamLaw.real {g | (nextDraw g).1 ∈ A ∧ (nextDraw g).2 ∈ B}
      = unitLaw.real A * streamLaw.real B := by
  rw [← measureReal_prod_prod, ← map_nextDraw,
    map_measureReal_apply measurable_nextDraw (hA.prod hB)]
  rfl

/-- A uniform draw is below `a` with probability `a`, up to `1`. -/
theorem unitLaw_lt {a : ℝ} (ha : 0 ≤ a) : unitLaw.real (Set.Iio a) = min a 1 := by
  have hset : Set.Iio a ∩ Set.Ico 0 1 = Set.Ico 0 (min a 1) := by
    ext x
    simp only [Set.mem_inter_iff, Set.mem_Iio, Set.mem_Ico, lt_min_iff]
    tauto
  rw [unitLaw, measureReal_restrict_apply measurableSet_Iio, hset,
    Real.volume_real_Ico_of_le (le_min ha zero_le_one), sub_zero]

theorem unitLaw_ge {a : ℝ} (ha : 0 ≤ a) : unitLaw.real (Set.Ici a) = 1 - min a 1 := by
  rw [← Set.compl_Iio, probReal_compl_eq_one_sub measurableSet_Iio, unitLaw_lt ha]

/-! ## Steps -/

variable {S : Type*}

/-- The streams on which `step` goes from `s` to `t` and leaves a stream of `B`. -/
def outcome (step : S → (ℕ → ℝ) → S × (ℕ → ℝ)) (s t : S) (B : Set (ℕ → ℝ)) : Set (ℕ → ℝ) :=
  {g | (step s g).1 = t ∧ (step s g).2 ∈ B}

/-- `step` moves by the matrix `P`, and leaves a fresh stream whatever its outcome. -/
structure Draws (step : S → (ℕ → ℝ) → S × (ℕ → ℝ)) (P : Matrix S S ℝ) : Prop where
  measurable : ∀ s t B, MeasurableSet B → MeasurableSet (outcome step s t B)
  law : ∀ s t B, MeasurableSet B →
    streamLaw.real (outcome step s t B) = P s t * streamLaw.real B

theorem Draws.prob {step : S → (ℕ → ℝ) → S × (ℕ → ℝ)} {P : Matrix S S ℝ} (h : Draws step P)
    (s t : S) : streamLaw.real {g | (step s g).1 = t} = P s t := by
  have hall := h.law s t Set.univ MeasurableSet.univ
  simpa [outcome] using hall

section Moves

variable [DecidableEq S]

/-- A move that is made without a draw. -/
theorem law_of_sure {step : S → (ℕ → ℝ) → S × (ℕ → ℝ)} {s u : S}
    (hstep : ∀ g, step s g = (u, g)) (t : S) {B : Set (ℕ → ℝ)} (hB : MeasurableSet B) :
    MeasurableSet (outcome step s t B) ∧
      streamLaw.real (outcome step s t B) = (if u = t then 1 else 0) * streamLaw.real B := by
  by_cases hu : u = t
  · simp [outcome, hstep, hu, hB]
  · simp [outcome, hstep, hu]

/-- A move that is made when a draw is below `a`; otherwise `s` stays. -/
theorem law_of_draw {step : S → (ℕ → ℝ) → S × (ℕ → ℝ)} {s u : S} {a : ℝ} (ha : 0 ≤ a)
    (hne : u ≠ s)
    (hstep : ∀ g, step s g = (if (nextDraw g).1 < a then u else s, (nextDraw g).2)) (t : S)
    {B : Set (ℕ → ℝ)} (hB : MeasurableSet B) :
    MeasurableSet (outcome step s t B) ∧
      streamLaw.real (outcome step s t B)
        = ((if u = t then min a 1 else 0) + (if s = t then 1 - min a 1 else 0))
          * streamLaw.real B := by
  by_cases hu : u = t
  · have hst : s ≠ t := fun h => hne (hu.trans h.symm)
    have hset : outcome step s t B = {g | (nextDraw g).1 ∈ Set.Iio a ∧ (nextDraw g).2 ∈ B} := by
      ext g
      by_cases hg : (nextDraw g).1 < a <;> simp [outcome, hstep, hg, hu, hst]
    rw [hset, streamLaw_nextDraw measurableSet_Iio hB, unitLaw_lt ha, if_pos hu, if_neg hst,
      add_zero]
    exact ⟨measurableSet_nextDraw measurableSet_Iio hB, rfl⟩
  · by_cases hst : s = t
    · subst hst
      have hset : outcome step s s B
          = {g | (nextDraw g).1 ∈ Set.Ici a ∧ (nextDraw g).2 ∈ B} := by
        ext g
        simp [outcome, hstep, hu]
      rw [hset, streamLaw_nextDraw measurableSet_Ici hB, unitLaw_ge ha, if_neg hu, if_pos rfl,
        zero_add]
      exact ⟨measurableSet_nextDraw measurableSet_Ici hB, rfl⟩
    · have hset : outcome step s t B = ∅ := by
        ext g
        by_cases hg : (nextDraw g).1 < a <;> simp [outcome, hstep, hg, hu, hst]
      simp [hset, hu, hst]

theorem Draws.id : Draws (fun (s : S) g => (s, g)) (1 : Matrix S S ℝ) := by
  constructor
  · intro s t B hB
    exact (law_of_sure (fun _ => rfl) t hB).1
  · intro s t B hB
    rw [(law_of_sure (fun _ => rfl) t hB).2, Matrix.one_apply]

end Moves

/-! ## Runs of steps -/

variable [Fintype S]

/-- Every outcome has its probability: the rows of the matrix add up to one. -/
theorem Draws.sum_row {step : S → (ℕ → ℝ) → S × (ℕ → ℝ)} {P : Matrix S S ℝ}
    (h : Draws step P) (s : S) : ∑ t, P s t = 1 := by
  have hdisj : Set.PairwiseDisjoint (Finset.univ : Finset S)
      fun t => outcome step s t Set.univ := by
    intro t _ t' _ htt'
    refine Set.disjoint_left.mpr fun g hg hg' => htt' ?_
    exact hg.1.symm.trans hg'.1
  have hall : (⋃ t ∈ (Finset.univ : Finset S), outcome step s t Set.univ) = Set.univ := by
    ext g
    simp [outcome]
  have hsum := measureReal_biUnion_finset hdisj
    (fun t _ => h.measurable s t Set.univ MeasurableSet.univ) (μ := streamLaw)
  rw [hall, probReal_univ] at hsum
  rw [hsum]
  apply Finset.sum_congr rfl
  intro t _
  rw [h.law s t Set.univ MeasurableSet.univ, probReal_univ, mul_one]

/-- **Two steps in a row** move by the product of their matrices. -/
theorem Draws.comp {step step' : S → (ℕ → ℝ) → S × (ℕ → ℝ)} {P Q : Matrix S S ℝ}
    (h : Draws step P) (h' : Draws step' Q) :
    Draws (fun s g => step' (step s g).1 (step s g).2) (P * Q) := by
  have hsplit : ∀ s t B, outcome (fun s g => step' (step s g).1 (step s g).2) s t B
      = ⋃ u ∈ (Finset.univ : Finset S), outcome step s u (outcome step' u t B) := by
    intro s t B
    ext g
    simp [outcome]
  have hmeas : ∀ s t B, MeasurableSet B → ∀ u,
      MeasurableSet (outcome step s u (outcome step' u t B)) := fun s t B hB u =>
    h.measurable s u _ (h'.measurable u t B hB)
  constructor
  · intro s t B hB
    rw [hsplit]
    exact Finset.measurableSet_biUnion _ fun u _ => hmeas s t B hB u
  · intro s t B hB
    rw [hsplit, measureReal_biUnion_finset ?_ fun u _ => hmeas s t B hB u, Matrix.mul_apply,
      Finset.sum_mul]
    · apply Finset.sum_congr rfl
      intro u _
      rw [h.law s u _ (h'.measurable u t B hB), h'.law u t B hB, mul_assoc]
    · intro u _ u' _ huu'
      refine Set.disjoint_left.mpr fun g hg hg' => huu' ?_
      exact hg.1.symm.trans hg'.1

/-- A list of steps, one after the other. -/
def runAll {ι : Type*} (step : ι → S → (ℕ → ℝ) → S × (ℕ → ℝ)) (l : List ι) (s : S)
    (g : ℕ → ℝ) : S × (ℕ → ℝ) :=
  l.foldl (fun p i => step i p.1 p.2) (s, g)

/-- **A run of steps** moves by the product of their matrices, in their order. -/
theorem Draws.runAll [DecidableEq S] {ι : Type*} {step : ι → S → (ℕ → ℝ) → S × (ℕ → ℝ)}
    {P : ι → Matrix S S ℝ} (h : ∀ i, Draws (step i) (P i)) (l : List ι) :
    Draws (RandomStep.runAll step l) (l.map P).prod := by
  induction l with
  | nil => exact Draws.id
  | cons i l ih =>
      have hcomp := (h i).comp ih
      rw [List.map_cons, List.prod_cons]
      exact hcomp

/-! ## The Metropolis step -/

section Metropolis

open Metropolis

variable [DecidableEq S]

/-- The proposed state is taken when its energy is no higher, and otherwise when a draw
is below the quotient of the weights. -/
noncomputable def metropolisStep (exp : ℝ → ℝ) (beta : ℝ) (next : S → S) (E : S → ℝ) (s : S)
    (g : ℕ → ℝ) : S × (ℕ → ℝ) :=
  if E (next s) - E s ≤ 0 then (next s, g)
  else (if (nextDraw g).1 < exp (-beta * (E (next s) - E s)) then next s else s,
    (nextDraw g).2)

omit [Fintype S] in
theorem draws_metropolisStep {exp : ℝ → ℝ} (hexp : IsExp exp) (beta : ℝ) {next : S → S}
    (hmove : ∀ s, next s ≠ s) (E : S → ℝ) :
    Draws (metropolisStep exp beta next E) (metropolis exp beta next E) := by
  have hlaw : ∀ s t B, MeasurableSet B →
      MeasurableSet (outcome (metropolisStep exp beta next E) s t B) ∧
        streamLaw.real (outcome (metropolisStep exp beta next E) s t B)
          = metropolis exp beta next E s t * streamLaw.real B := by
    intro s t B hB
    by_cases hdown : E (next s) - E s ≤ 0
    · have hstep : ∀ g, metropolisStep exp beta next E s g = (next s, g) := fun g =>
        if_pos hdown
      simpa [metropolis, acceptance, hdown] using law_of_sure hstep t hB
    · have hstep : ∀ g, metropolisStep exp beta next E s g
          = (if (nextDraw g).1 < exp (-beta * (E (next s) - E s)) then next s else s,
            (nextDraw g).2) := fun g => if_neg hdown
      simpa [metropolis, acceptance, hdown] using
        law_of_draw (hexp.pos _).le (hmove s) hstep t hB
  constructor
  · intro s t B hB
    exact (hlaw s t B hB).1
  · intro s t B hB
    exact (hlaw s t B hB).2

end Metropolis

end RandomStep
