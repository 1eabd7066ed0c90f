import SpinGlass.Runs
import Mathlib.Tactic.Linarith
import Mathlib.Tactic.FieldSimp

/-!
# Sweeps — the schedule of `beta`, and the sweeps of a run

`schedule` divides by `Ns - 1`: `wellScheduled_iff` says that it goes from
`beta0` to `beta1` as it should for every number of sweeps but one. The
double loop compares a 32-bit counter with a 64-bit number of sweeps:
`sweepsThrough_iff` says that it makes exactly `Ns` sweeps, each over all
spins in their order, as long as the counter holds `Ns`, and never ends
otherwise.
-/

namespace SpinGlass

open CountedLoop MultiSpin

/-! ## The schedule -/

section Schedule

variable {K : Type} [Field K] [LinearOrder K]

/-- The schedule of a run of `Ns` sweeps goes from `beta0` to `beta1`: it has a value in
every sweep, starts at `beta0`, comes to `beta1` in the last of two sweeps or more, and in
between neither leaves their interval nor turns back. -/
structure WellScheduled (beta0 beta1 : K) (Ns : ℕ) : Prop where
  defined : ∀ s, s < Ns → ∃ beta, schedule beta0 beta1 Ns s = some beta
  first : schedule beta0 beta1 Ns 0 = some beta0
  last : 2 ≤ Ns → schedule beta0 beta1 Ns (Ns - 1) = some beta1
  between : ∀ s beta, s < Ns → schedule beta0 beta1 Ns s = some beta →
    min beta0 beta1 ≤ beta ∧ beta ≤ max beta0 beta1
  rising : beta0 ≤ beta1 → ∀ s s' beta beta', s ≤ s' → s' < Ns →
    schedule beta0 beta1 Ns s = some beta → schedule beta0 beta1 Ns s' = some beta' →
    beta ≤ beta'
  falling : beta1 ≤ beta0 → ∀ s s' beta beta', s ≤ s' → s' < Ns →
    schedule beta0 beta1 Ns s = some beta → schedule beta0 beta1 Ns s' = some beta' →
    beta' ≤ beta

omit [LinearOrder K] in
theorem schedule_of_two_le {Ns : ℕ} (hNs : 2 ≤ Ns) (beta0 beta1 : K) (s : ℕ) :
    schedule beta0 beta1 Ns s
      = some (beta0 + (beta1 - beta0) / ((Ns - 1 : ℕ) : K) * (s : K)) := by
  rw [schedule, pred64_of_pos (by omega), if_neg (by omega)]

omit [LinearOrder K] in
/-- With one sweep the schedule divides by zero. -/
theorem schedule_one (beta0 beta1 : K) (s : ℕ) : schedule beta0 beta1 1 s = none := by
  rw [schedule, pred64_of_pos Nat.one_pos, if_pos rfl]

variable [IsStrictOrderedRing K]

/-- The part of the way that is behind in sweep `s`. -/
theorem fraction_mem {Ns s : ℕ} (hs : s < Ns) (hNs : 2 ≤ Ns) :
    0 ≤ (s : K) / ((Ns - 1 : ℕ) : K) ∧ (s : K) / ((Ns - 1 : ℕ) : K) ≤ 1 := by
  have hpos : (0 : K) < ((Ns - 1 : ℕ) : K) := by
    rw [Nat.cast_pos]
    omega
  constructor
  · exact div_nonneg (Nat.cast_nonneg s) hpos.le
  · rw [div_le_one hpos, Nat.cast_le]
    omega

theorem fraction_mono {s s' : ℕ} (Ns : ℕ) (h : s ≤ s') :
    (s : K) / ((Ns - 1 : ℕ) : K) ≤ (s' : K) / ((Ns - 1 : ℕ) : K) :=
  div_le_div_of_nonneg_right (Nat.cast_le.mpr h) (Nat.cast_nonneg _)

omit [LinearOrder K] [IsStrictOrderedRing K] in
theorem eq_of_schedule {Ns s : ℕ} (hNs : 2 ≤ Ns) {beta0 beta1 beta : K}
    (h : schedule beta0 beta1 Ns s = some beta) :
    beta = beta0 + (beta1 - beta0) * ((s : K) / ((Ns - 1 : ℕ) : K)) := by
  rw [schedule_of_two_le hNs, Option.some.injEq] at h
  rw [← h]
  ring

/-- Part of the way is in between. -/
theorem schedule_between {Ns s : ℕ} (hNs : 2 ≤ Ns) (hs : s < Ns) {beta0 beta1 beta : K}
    (h : schedule beta0 beta1 Ns s = some beta) :
    min beta0 beta1 ≤ beta ∧ beta ≤ max beta0 beta1 := by
  obtain ⟨h0, h1⟩ := fraction_mem (K := K) hs hNs
  rw [eq_of_schedule hNs h]
  rcases le_total beta0 beta1 with hle | hle
  · rw [min_eq_left hle, max_eq_right hle]
    constructor <;> nlinarith
  · rw [min_eq_right hle, max_eq_left hle]
    constructor <;> nlinarith

theorem wellScheduled_of_two_le (beta0 beta1 : K) {Ns : ℕ} (hNs : 2 ≤ Ns) :
    WellScheduled beta0 beta1 Ns where
  defined s _ := ⟨_, schedule_of_two_le hNs beta0 beta1 s⟩
  first := by rw [schedule_of_two_le hNs, Nat.cast_zero, mul_zero, add_zero]
  last := by
    intro _
    have hne : ((Ns - 1 : ℕ) : K) ≠ 0 := by
      rw [Nat.cast_ne_zero]
      omega
    rw [schedule_of_two_le hNs, div_mul_cancel₀ _ hne, add_sub_cancel]
  between _ _ hs h := schedule_between hNs hs h
  rising := by
    intro hle s s' beta beta' hss _ h h'
    rw [eq_of_schedule hNs h, eq_of_schedule hNs h']
    have := mul_le_mul_of_nonneg_left (fraction_mono Ns hss) (sub_nonneg.mpr hle)
    linarith
  falling := by
    intro hle s s' beta beta' hss _ h h'
    rw [eq_of_schedule hNs h, eq_of_schedule hNs h']
    have := mul_le_mul_of_nonneg_left (fraction_mono Ns hss) (sub_nonneg.mpr hle)
    linarith

/-- **When `beta` goes from `beta0` to `beta1`**: whenever there is more than one sweep. -/
theorem wellScheduled_iff (beta0 beta1 : K) {Ns : ℕ} (hNs : 1 ≤ Ns) :
    WellScheduled beta0 beta1 Ns ↔ 2 ≤ Ns := by
  constructor
  · intro h
    by_contra hlt
    obtain rfl : Ns = 1 := by omega
    have hfirst := h.first
    rw [schedule_one] at hfirst
    cases hfirst
  · exact wellScheduled_of_two_le beta0 beta1

/-- Eleven sweeps from `1 / 10` to `3`. -/
theorem wellScheduled_iff_sample : WellScheduled (1 / 10 : ℚ) 3 11 :=
  (wellScheduled_iff (1 / 10 : ℚ) 3 (by decide)).mpr (by decide)

/-- One sweep has no `beta`. -/
theorem one_sweep_has_no_beta :
    schedule (1 / 10 : ℚ) 3 1 0 = none ∧ ¬ WellScheduled (1 / 10 : ℚ) 3 1 := by
  have hnone : schedule (1 / 10 : ℚ) 3 1 0 = none := schedule_one _ _ _
  refine ⟨hnone, fun h => ?_⟩
  have hfirst := h.first
  rw [hnone] at hfirst
  cases hfirst

end Schedule

/-! ## The sweeps -/

section Turns

variable {K G : Type} [Field K] [LinearOrder K]

/-- The turns of `Ns` sweeps over `N` spins: every sweep visits every spin, in order. -/
def turns (Ns N : ℕ) : List (ℕ × ℕ) :=
  (List.range Ns).flatMap fun s => (List.range N).map fun i => (s, i)

/-- The double loop of `run` with the list of its turns. -/
def annealLog (fuel : ℕ) (lib : Numerics K G) (beta : ℕ → Option K) (Ns : ℕ)
    (p : List (ℕ × ℕ) × Annealing K G) : Exec (List (ℕ × ℕ) × Annealing K G) :=
  forUnsigned fuel Ns (fun s p =>
    forUnsigned fuel p.2.self.N_ (fun i p => do
      let st ← flipStep lib (beta s) i p.2
      .ok (p.1 ++ [(s, i)], st)) p) p

/-- The list only looks on: without it, `annealLog` is `anneal`. -/
theorem anneal_eq_map_annealLog (fuel : ℕ) (lib : Numerics K G) (beta : ℕ → Option K)
    (Ns : ℕ) (p : List (ℕ × ℕ) × Annealing K G) :
    anneal fuel lib beta Ns p.2 = (annealLog fuel lib beta Ns p).map Prod.snd := by
  have hsweep : ∀ (s : ℕ) (p : List (ℕ × ℕ) × Annealing K G),
      sweep fuel lib (beta s) p.2
        = (forUnsigned fuel p.2.self.N_ (fun i p => do
            let st ← flipStep lib (beta s) i p.2
            .ok (p.1 ++ [(s, i)], st)) p).map Prod.snd := by
    intro s p
    refine forUnsigned_map (I := fun _ => True) (fun i p _ _ => ?_)
      (fun _ _ _ _ _ _ => trivial) trivial
    cases flipStep lib (beta s) i p.2 with
    | ok st => rfl
    | error e => rfl
  exact forUnsigned_map (I := fun _ => True) (fun s p _ _ => hsweep s p)
    (fun _ _ _ _ _ _ => trivial) trivial

/-- The double loop ends, after exactly `Ns` sweeps over all spins in their order. -/
def SweepsThrough (lib : Numerics K G) (beta : ℕ → Option K) (Ns : ℕ)
    (st : Annealing K G) : Prop :=
  ∃ st' bound, ∀ fuel, bound ≤ fuel →
    annealLog fuel lib beta Ns ([], st) = .ok (turns Ns st.self.N_, st')
      ∧ anneal fuel lib beta Ns st = .ok st'

theorem turns_succ (Ns N : ℕ) :
    turns (Ns + 1) N = turns Ns N ++ (List.range N).map fun i => (Ns, i) := by
  simp [turns, List.range_succ]

variable {H : HamiltonianType K} {edges : List (EdgeType K)}

/-- The state after some turns. -/
def afterTurns (edges : List (EdgeType K)) (lib : Numerics K G) (beta : ℕ → Option K)
    (ts : List (ℕ × ℕ)) (st : Annealing K G) : Annealing K G :=
  ts.foldl (fun st t =>
    flipped lib (beta t.1) (change (spinAt st.self.spins_) edges t.2) t.2 st) st

/-- What the double loop has done so far: the turns `ts`. -/
structure HasTurned (H : HamiltonianType K) (edges : List (EdgeType K)) (lib : Numerics K G)
    (beta : ℕ → Option K) (st : Annealing K G) (ts : List (ℕ × ℕ))
    (p : List (ℕ × ℕ) × Annealing K G) : Prop where
  log : p.1 = ts
  state : p.2 = afterTurns edges lib beta ts st
  onH : OnH H p.2.self

/-- With counters wide enough, `annealLog` makes the turns of `Ns` sweeps. -/
theorem annealLog_meets (hI : Incidence H edges) (lib : Numerics K G) (beta : ℕ → Option K)
    {Ns fuel : ℕ} (hN : H.size < 2 ^ 32) (hf : H.size < fuel) (hNs : Ns < 2 ^ 32)
    (hfs : Ns < fuel) {st : Annealing K G} (hon : OnH H st.self) :
    Meets (annealLog fuel lib beta Ns ([], st)) (fun _ => False)
      (HasTurned H edges lib beta st (turns Ns H.size)) := by
  refine meets_forUnsigned_of_lt
    (fun s p => HasTurned H edges lib beta st (turns s H.size) p) hNs hfs ?_ ⟨rfl, rfl, hon⟩
  intro s p _ hp
  rw [hp.onH.size, turns_succ]
  refine meets_forUnsigned_of_lt
    (fun i p => HasTurned H edges lib beta st
      (turns s H.size ++ (List.range i).map fun i => (s, i)) p) hN hf ?_ (by simpa using hp)
  intro i p hi hp
  rw [flipStep_eq hI lib (beta s) hp.onH hi, ok_bind, meets_ok]
  constructor
  · simp [List.range_succ, hp.log]
  · simp [List.range_succ, afterTurns, hp.state]
  · exact flipped_onH hp.onH hi

/-- **When the double loop makes its sweeps, and when a run ends**: exactly when the
32-bit counter holds `Ns`. -/
theorem sweepsThrough_iff [IsStrictOrderedRing K] {stod : Str → Option K} {text : Str}
    {buildFuel : ℕ} (hbuild : hamiltonianType buildFuel stod text = .ok H)
    (hN : H.size < 2 ^ 32) (lib : Numerics K G) (beta : ℕ → Option K) (Ns : ℕ) :
    (∀ st, OnH H st.self → (SweepsThrough lib beta Ns st ↔ Ns < 2 ^ 32)) ∧
    (∀ seed, (∃ bound, ∀ fuel, bound ≤ fuel →
      ∃ r, runWith fuel lib (saSolver H) beta Ns seed = .ok r) ↔ Ns < 2 ^ 32) := by
  obtain ⟨-, hI⟩ := (hamiltonianType_built buildFuel stod text).of_ok hbuild
  constructor
  · intro st hon
    constructor
    · rintro ⟨st', bound, h⟩
      exact (forUnsigned_ok_iff.mp (h bound (Nat.le_refl _)).2).1
    · intro hNs
      refine ⟨afterTurns (edgesOf (couplingLines stod text)) lib beta (turns Ns H.size) st,
        H.size + Ns + 1, fun fuel hfuel => ?_⟩
      obtain ⟨p, hp, hturned⟩ :=
        (annealLog_meets hI lib beta hN (show H.size < fuel by omega) hNs (by omega)
          hon).exists_ok
      have hpair : p = (turns Ns st.self.N_,
          afterTurns (edgesOf (couplingLines stod text)) lib beta (turns Ns H.size) st) :=
        Prod.ext (by rw [hturned.log, hon.size]) hturned.state
      have herase := anneal_eq_map_annealLog fuel lib beta Ns ([], st)
      rw [hp, hpair] at herase
      exact ⟨by rw [hp, hpair], herase⟩
  · intro seed
    constructor
    · rintro ⟨bound, h⟩
      obtain ⟨r, hr⟩ := h bound (Nat.le_refl _)
      exact (runWith_ok hr).2.2.1
    · intro hNs
      refine ⟨H.size + Ns + 1, fun fuel hfuel => ?_⟩
      exact exists_runWith hI lib beta hN (by omega) hNs (by omega) seed

/-- Two sweeps over the sample lattice. -/
theorem sweepsThrough_iff_sample :
    SweepsThrough sampleLib (schedule (1 / 10) 3 2) 2
      ⟨1, 0, { saSolver sampleH with spins_ := [0, 1, 1] }⟩ := by
  have hbuild : hamiltonianType 4 stodInteger sampleText = .ok sampleH := by decide
  have honH : OnH sampleH { saSolver sampleH with spins_ := [0, 1, 1] } :=
    ⟨rfl, rfl, rfl, by decide⟩
  exact ((sweepsThrough_iff hbuild (by decide) sampleLib (schedule (1 / 10) 3 2) 2).1 _
    honH).mpr (by decide)

/-- A run of `2 ^ 32` sweeps never ends: its counter wraps before it gets there. -/
theorem run_of_too_many_sweeps :
    hamiltonianType 4 stodInteger sampleText = .ok sampleH ∧
    (∀ fuel seed r, run fuel sampleLib (saSolver sampleH) (1 / 10) 3 (2 ^ 32) seed ≠ .ok r) ∧
    ¬ SweepsThrough sampleLib (schedule (1 / 10) 3 (2 ^ 32)) (2 ^ 32)
      ⟨1, 0, { saSolver sampleH with spins_ := [0, 1, 1] }⟩ := by
  refine ⟨by decide, fun fuel seed r h => ?_, ?_⟩
  · exact absurd (runWith_ok h).2.2.1 (by decide)
  · rintro ⟨st', bound, h⟩
    exact absurd (forUnsigned_ok_iff.mp (h bound (Nat.le_refl _)).2).1 (by decide)

end Turns

end SpinGlass
