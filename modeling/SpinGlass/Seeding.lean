import SpinGlass.Repetitions
import SpinGlass.Lib.Lehmer

/-!
# Seeding — the random numbers of two repetitions

Repetition `i` seeds `std::minstd_rand0` with `i`, in the single-threaded
program and, through an `uint64_t`, an `int` and a `std::size_t`, in
`spawn`. The engine takes the seeds `0` and `1` for the same:
`repetitions_differ_iff` says that any other two repetitions have different
random numbers at every draw, and these two the same results.
-/

namespace SpinGlass

open Transition CountedLoop

/-- Number `n` that the engine gives after `seed(s)`. -/
def rawNumber (s n : ℕ) : ℕ := minstdNext^[n + 1] (minstdSeed s)

/-- The engines of two runs start differently, and never give the same number. -/
structure DifferentStreams (s t : ℕ) : Prop where
  states : minstdSeed s ≠ minstdSeed t
  numbers : ∀ n, rawNumber s n ≠ rawNumber t n

/-- **Which seeds make different experiments**: any two but `0` and `1`. -/
theorem differentStreams_iff {s t : ℕ} (hs : s < 2147483647) (ht : t < 2147483647)
    (hst : s ≠ t) : DifferentStreams s t ↔ 2 ≤ max s t := by
  have hstates : minstdSeed s ≠ minstdSeed t ↔ 2 ≤ max s t := by
    show Lehmer.seeded 2147483647 s ≠ Lehmer.seeded 2147483647 t ↔ _
    rw [Ne, Lehmer.seeded_eq_iff hs ht]
    omega
  constructor
  · intro h
    exact hstates.mp h.states
  · intro h
    refine ⟨hstates.mpr h, fun n => ?_⟩
    exact Lehmer.iterate_next_ne (a := 16807) (by decide) (by decide)
      (Lehmer.seeded_lt (by decide) s) (Lehmer.seeded_lt (by decide) t) (hstates.mpr h) (n + 1)

/-- A run knows of its seed only what the engine makes of it. -/
theorem solve_congr_seed {K G : Type} [Field K] [LinearOrder K] {lib : Numerics K G} {s t : ℕ}
    (h : lib.seed s = lib.seed t) (fuel : ℕ) (H : HamiltonianType K) (beta0 beta1 : K) (Ns : ℕ) :
    solve fuel lib H beta0 beta1 Ns s = solve fuel lib H beta0 beta1 Ns t := by
  simp only [solve, run, runWith, h]

/-- **Which repetitions are different experiments.** With at most `2147483646` of them, two
repetitions have different random numbers, at every draw, unless they are the first two,
and these have the same result on every Hamiltonian: in the single-threaded program, where
repetition `i` is a run with seed `i`, and in every state of a call of `spawn` on locality
`0`, where it is the launch number `i`. -/
theorem repetitions_differ_iff {numRep : ℕ} (hrep : numRep ≤ 2147483646) {i j : ℕ}
    (hi : i < numRep) (hj : j < numRep) (hij : i ≠ j) :
    (DifferentStreams i j ↔ 2 ≤ max i j) ∧
    (∀ {I R : Type} [DecidableEq I] (runOne : I → ℤ → Option R) (nranks osThreads : ℕ)
      (ids : List I) (w : Wrapper I R) (p q : I × ℤ),
      1 ≤ (Wrapper.created nranks osThreads ids : Wrapper I R).nranks →
      Reaches (Wrapper.step runOne) (fun _ => True)
        ((Wrapper.created nranks osThreads ids).spawnCall numRep) w →
      w.launched[i]? = some p → w.launched[j]? = some q →
      (DifferentStreams (toSize p.2) (toSize q.2) ↔ 2 ≤ max i j)) ∧
    (∀ {K : Type} [Field K] [LinearOrder K] (lib : Numerics K ℕ), lib.seed = minstdSeed →
      max i j < 2 → ∀ (fuel : ℕ) (H : HamiltonianType K) (beta0 beta1 : K) (Ns : ℕ),
      solve fuel lib H beta0 beta1 Ns i = solve fuel lib H beta0 beta1 Ns j) := by
  have hdiff := differentStreams_iff (s := i) (t := j) (by omega) (by omega) hij
  refine ⟨hdiff, ?_, ?_⟩
  · intro I R _ runOne nranks osThreads ids w p q hranks hw hp hq
    have hbooks := (Wrapper.accounted_spawnCall runOne hranks numRep).reaches hw
    have hseeds := hbooks.seeds_eq (by omega)
    have hseed : ∀ {n : ℕ} {p : I × ℤ}, n < numRep → w.launched[n]? = some p →
        toSize p.2 = n := by
      intro n p hn hp
      have hget := congrArg (fun l => l[n]?) hseeds
      simp only [List.getElem?_map, hp, Option.map_some] at hget
      obtain ⟨m, hm, hpm⟩ := Option.map_eq_some_iff.mp hget.symm
      obtain ⟨hlt, hmn⟩ := List.getElem?_eq_some_iff.mp hm
      rw [List.getElem_range] at hmn
      rw [← hpm, ← hmn]
      exact toSize_of_lt (by omega)
    rw [hseed hi hp, hseed hj hq]
    exact hdiff
  · intro K _ _ lib hlib hmax fuel H beta0 beta1 Ns
    refine solve_congr_seed ?_ fuel H beta0 beta1 Ns
    rw [hlib]
    show Lehmer.seeded 2147483647 i = Lehmer.seeded 2147483647 j
    rw [Lehmer.seeded_eq_iff (by omega) (by omega)]
    omega

/-- Repetitions `1` and `2` of three, of which a call of `spawn` on three nodes has
launched all. -/
theorem repetitions_differ_iff_sample :
    DifferentStreams 1 2 ∧
    ∃ w : Wrapper ℕ ℤ, w.launched = [(5, 0), (6, 1), (7, 2)] ∧
      DifferentStreams (toSize 1) (toSize 2) := by
  obtain ⟨hreference, hspawn, -⟩ := repetitions_differ_iff (i := 1) (j := 2)
    (show 3 ≤ 2147483646 by decide) (by decide) (by decide) (by decide)
  refine ⟨hreference.mpr (by decide), ?_⟩
  have hrun : ((after (Wrapper.step fun (_ : ℕ) (seed : ℤ) => some seed)
      [.spawn, .spawn, .spawn, .spawn, .spawn]
      ((Wrapper.created 1 1 [5, 6, 7]).spawnCall 3)).map fun w => w.launched)
      = some [(5, 0), (6, 1), (7, 2)] := by decide +kernel
  obtain ⟨w, hw, hlaunched⟩ := Option.map_eq_some_iff.mp hrun
  refine ⟨w, hlaunched, ?_⟩
  exact (hspawn (fun _ seed => some seed) 1 1 [5, 6, 7] w (6, 1) (7, 2) (by decide)
    ⟨_, by simp, hw⟩ (by rw [hlaunched]; rfl) (by rw [hlaunched]; rfl)).mpr (by decide)

/-- Repetitions `0` and `1` are one experiment, made twice. -/
theorem first_two_repetitions_coincide :
    minstdSeed 0 = minstdSeed 1 ∧ ¬ DifferentStreams 0 1 ∧
    solve 4 sampleLib sampleH (1 / 10) 3 2 0 = solve 4 sampleLib sampleH (1 / 10) 3 2 1 :=
  ⟨rfl, fun h => h.states rfl, solve_congr_seed rfl 4 sampleH (1 / 10) 3 2⟩

end SpinGlass
