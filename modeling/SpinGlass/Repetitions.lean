import SpinGlass.Accounting
import SpinGlass.Annealing
import Mathlib.Data.List.Perm.Basic

/-!
# Repetitions — `spawn` and the single-threaded program

The solver that is wrapped is `sa_solver`. Whatever the order of events, a
call of `spawn` keeps every repetition in exactly one place, and each of its
results is the one that the single-threaded program computes for the same
repetition.
-/

namespace SpinGlass

open Transition Channels CountedLoop

section Programs

variable {K G : Type} [Field K] [LinearOrder K]

/-- An `int` as a `std::size_t`. -/
def toSize (n : ℤ) : ℕ := (n % 2 ^ 64).toNat

/-- `run_one(beta0, beta1, Ns, seed)`: a run on a copy of the wrapped solver. -/
def runOne (fuel : ℕ) (lib : Numerics K G) (theSolver : SaSolver K) (beta0 beta1 : K)
    (Ns : ℕ) (seed : ℤ) : Exec (Result K) := do
  let newSolver := theSolver.copy
  let r ← run fuel lib newSolver beta0 beta1 Ns (toSize seed)
  .ok r.1

/-- The loop of the single-threaded program, with fewer than `2 ^ 31` repetitions for its
`int` counter: each runs on a solver of its own. -/
def singleThread (fuel : ℕ) (lib : Numerics K G) (H : HamiltonianType K) (beta0 beta1 : K)
    (Ns numRep : ℕ) : Exec (List (Result K)) :=
  (List.range numRep).foldlM (fun x i => do
    let r ← solve fuel lib H beta0 beta1 Ns i
    .ok (x ++ [r])) []

/-- What the future of a solve becomes ready with, on a wrapper around `theSolver`. -/
def asyncSolve (fuel : ℕ) (lib : Numerics K G) (theSolver : SaSolver K) (beta0 beta1 : K)
    (Ns : ℕ) (seed : ℤ) : Option (Result K) :=
  (runOne fuel lib theSolver beta0 beta1 Ns seed).toOption

theorem toSize_of_lt {i : ℕ} (h : i < 2 ^ 64) : toSize i = i := by
  rw [toSize, Int.emod_eq_of_lt (by omega) (by omega), Int.toNat_natCast]

/-- A repetition on a node is the one of the single-threaded program. -/
theorem asyncSolve_eq_some {fuel : ℕ} {lib : Numerics K G} {H : HamiltonianType K}
    {beta0 beta1 : K} {Ns i : ℕ} (h : i < 2 ^ 64) {r : Result K} :
    asyncSolve fuel lib (saSolver H) beta0 beta1 Ns i = some r ↔
      solve fuel lib H beta0 beta1 Ns i = .ok r := by
  rw [asyncSolve, runOne, toSize_of_lt h, solve]
  show (run fuel lib (saSolver H) beta0 beta1 Ns i >>= fun r => .ok r.1).toOption = some r ↔ _
  cases run fuel lib (saSolver H) beta0 beta1 Ns i with
  | error e => simp [Except.toOption, error_bind]
  | ok p => simp [Except.toOption, ok_bind]

/-- A solve returns when the 32-bit counters hold the sites and the sweeps. -/
theorem exists_asyncSolve [IsStrictOrderedRing K] {H : HamiltonianType K}
    {edges : List (EdgeType K)} (hI : Incidence H edges) (lib : Numerics K G) (beta0 beta1 : K)
    {fuel Ns : ℕ} (hN : H.size < 2 ^ 32) (hf : H.size < fuel) (hNs : Ns < 2 ^ 32)
    (hfs : Ns < fuel) (seed : ℤ) :
    ∃ r, asyncSolve fuel lib (saSolver H) beta0 beta1 Ns seed = some r := by
  obtain ⟨r, hr⟩ := exists_runWith hI lib (schedule beta0 beta1 Ns) hN hf hNs hfs (toSize seed)
  have hrun : runOne fuel lib (saSolver H) beta0 beta1 Ns seed = .ok r.1 := by
    show (run fuel lib (saSolver H) beta0 beta1 Ns (toSize seed) >>= fun r => .ok r.1) = _
    rw [run, hr, ok_bind]
  exact ⟨r.1, by rw [asyncSolve, hrun, Except.toOption]⟩

end Programs

/-! ## Lists of results -/

theorem map_some_of_forall₂ {α β : Type} {f : α → Option β} {l : List α} {m : List β}
    (h : List.Forall₂ (fun a b => f a = some b) l m) : m.map some = l.map f := by
  induction h with
  | nil => rfl
  | cons hr _ ih => rw [List.map_cons, List.map_cons, hr, ih]

/-- A loop that pushes back one result after the other. -/
theorem foldlM_push {α β : Type} {f : α → Exec β} {l : List α} (h : ∀ a ∈ l, ∃ b, f a = .ok b)
    (x : List β) :
    ∃ m, l.foldlM (fun x a => do
        let b ← f a
        .ok (x ++ [b])) x = .ok (x ++ m) ∧ List.Forall₂ (fun a b => f a = .ok b) l m := by
  induction l generalizing x with
  | nil => exact ⟨[], by simp [pure, Except.pure], List.Forall₂.nil⟩
  | cons a l ih =>
      obtain ⟨b, hb⟩ := h a (by simp)
      obtain ⟨m, hm, hall⟩ := ih (fun a' ha' => h a' (by simp [ha'])) (x ++ [b])
      refine ⟨b :: m, ?_, List.Forall₂.cons hb hall⟩
      rw [List.foldlM_cons, hb, ok_bind, ok_bind, hm, List.append_assoc]
      rfl

/-- A loop over the repetitions returns when each of them does, with their results. -/
theorem singleThread_eq {K G : Type} [Field K] [LinearOrder K] {fuel : ℕ} {lib : Numerics K G}
    {H : HamiltonianType K} {beta0 beta1 : K} {Ns numReps : ℕ} (hreps : numReps < 2 ^ 31)
    (h : ∀ i, i < numReps → ∃ r, solve fuel lib H beta0 beta1 Ns i = .ok r) :
    ∃ x, singleThread fuel lib H beta0 beta1 Ns numReps = .ok x ∧
      x.map some = (List.range numReps).map fun i : ℕ =>
        asyncSolve fuel lib (saSolver H) beta0 beta1 Ns i := by
  obtain ⟨x, hx, hall⟩ := foldlM_push (fun i hi => h i (List.mem_range.mp hi)) []
  have hboth := (List.forall₂_and_left _ _).mpr ⟨fun i hi => List.mem_range.mp hi, hall⟩
  refine ⟨x, hx, map_some_of_forall₂ (hboth.imp ?_)⟩
  intro i r hir
  exact (asyncSolve_eq_some (by omega)).mpr hir.2

/-! ## Exactly once -/

section Books

variable {K G I : Type} [Field K] [LinearOrder K] [DecidableEq I] {fuel : ℕ}
  {lib : Numerics K G} {H : HamiltonianType K} {theSolver : I → SaSolver K} {beta0 beta1 : K}
  {Ns numReps : ℕ} {w : Wrapper I (Result K)}

/-- The entries of the vector are results of the single-threaded program. -/
theorem results_of_books (hsame : ∀ s, theSolver s = saSolver H) (hreps : numReps < 2 ^ 31)
    (hbooks : w.Accounted (fun s seed => asyncSolve fuel lib (theSolver s) beta0 beta1 Ns seed)
      numReps) :
    List.Forall₂ (fun p r => ∃ i : ℕ, p.2 = (i : ℤ) ∧ i < numReps ∧
      solve fuel lib H beta0 beta1 Ns i = .ok r) w.collected w.repetitionResultsVector := by
  have hboth := (List.forall₂_and_left _ _).mpr
    ⟨fun p hp => hbooks.seed_of_collected hreps hp, hbooks.results⟩
  apply hboth.imp
  rintro p r ⟨⟨i, hpi, hi⟩, hr⟩
  rw [hsame, hpi] at hr
  exact ⟨i, hpi, hi, (asyncSolve_eq_some (by omega)).mp hr⟩

/-- A complete vector is the one of the single-threaded program, up to the order. -/
theorem perm_singleThread (hsame : ∀ s, theSolver s = saSolver H) (hreps : numReps < 2 ^ 31)
    (hbooks : w.Accounted (fun s seed => asyncSolve fuel lib (theSolver s) beta0 beta1 Ns seed)
      numReps) (hrem : w.remaining = 0) (hempty : ∀ s, w.asyncResults s = []) :
    ∃ x, singleThread fuel lib H beta0 beta1 Ns numReps = .ok x ∧
      w.repetitionResultsVector.Perm x := by
  have hperm := hbooks.perm_of_empty hreps hrem hempty
  -- as functions of the seed, both vectors list the same results
  have hvector : w.repetitionResultsVector.map some
      = (w.collected.map Prod.snd).map (asyncSolve fuel lib (saSolver H) beta0 beta1 Ns) := by
    rw [List.map_map]
    refine map_some_of_forall₂ (hbooks.results.imp fun p r hpr => ?_)
    rwa [hsame] at hpr
  have hreturns : ∀ i, i < numReps → ∃ r, solve fuel lib H beta0 beta1 Ns i = .ok r := by
    intro i hi
    have hmem : (i : ℤ) ∈ w.collected.map Prod.snd :=
      hperm.mem_iff.mpr (List.mem_map.mpr ⟨i, List.mem_range.mpr hi, rfl⟩)
    have hsome : asyncSolve fuel lib (saSolver H) beta0 beta1 Ns i
        ∈ w.repetitionResultsVector.map some := by
      rw [hvector]
      exact List.mem_map_of_mem hmem
    obtain ⟨r, -, hr⟩ := List.mem_map.mp hsome
    exact ⟨r, (asyncSolve_eq_some (by omega)).mp hr.symm⟩
  obtain ⟨x, hx, hreference⟩ := singleThread_eq hreps hreturns
  refine ⟨x, hx, ?_⟩
  have hsome := hperm.map (asyncSolve fuel lib (saSolver H) beta0 beta1 Ns)
  rw [← hvector, List.map_map] at hsome
  rw [← List.map_perm_map_iff (Option.some_injective _), hreference]
  exact hsome

end Books

variable {K G I : Type} [Field K] [LinearOrder K] [DecidableEq I]

/-- **Exactly once.** In every state that a call of `spawn` on locality `0` reaches, by
whatever events in whatever order: the seeds below the number `k` of launched repetitions
have been launched once each, in their order, and each stands in exactly one place, a
queue or the vector; the counter is the size of the vector; of each solver the results
are in the order of the launches, which is the order of the seeds; every entry is the
result of the single-threaded program for its seed; and when all repetitions have been
launched and collected, the vector is the one of that program up to the order. -/
theorem repetitions_exactly_once (fuel : ℕ) (lib : Numerics K G) (H : HamiltonianType K)
    {theSolver : I → SaSolver K} (hsame : ∀ s, theSolver s = saSolver H) (beta0 beta1 : K)
    (Ns : ℕ) {numReps : ℕ} (hreps : numReps < 2 ^ 31) {nranks osThreads : ℕ} {ids : List I}
    (hranks : 1 ≤ (Wrapper.created nranks osThreads ids : Wrapper I (Result K)).nranks)
    {w : Wrapper I (Result K)}
    (hw : Reaches
      (Wrapper.step fun s seed => asyncSolve fuel lib (theSolver s) beta0 beta1 Ns seed)
      (fun _ => True) ((Wrapper.created nranks osThreads ids).spawnCall numReps) w) :
    w.launched.map Prod.snd = (List.range (numReps - w.remaining)).map (fun i : ℕ => (i : ℤ)) ∧
    (∀ i : ℕ, i < numReps - w.remaining →
      (∃ s, (w.queuedSeeds s).count (i : ℤ) = 1 ∧ (∀ s', s' ≠ s → (i : ℤ) ∉ w.queuedSeeds s') ∧
          (i : ℤ) ∉ w.collected.map Prod.snd) ∨
        ((w.collected.map Prod.snd).count (i : ℤ) = 1 ∧ ∀ s, (i : ℤ) ∉ w.queuedSeeds s)) ∧
    w.totalCompleted = w.repetitionResultsVector.length ∧
    (∀ s, itemsOf s w.collected <+: itemsOf s w.launched ∧
      (itemsOf s w.launched).Pairwise (· < ·)) ∧
    List.Forall₂ (fun p r => ∃ i : ℕ, p.2 = (i : ℤ) ∧ i < numReps ∧
      solve fuel lib H beta0 beta1 Ns i = .ok r) w.collected w.repetitionResultsVector ∧
    (w.remaining = 0 → (∀ s, w.asyncResults s = []) → ∃ x,
      singleThread fuel lib H beta0 beta1 Ns numReps = .ok x ∧
        w.repetitionResultsVector.Perm x) := by
  have hbooks := (Wrapper.accounted_spawnCall _ hranks numReps).reaches hw
  have hbudget := hbooks.budget
  have hseeds := hbooks.seeds_eq hreps
  have hk : numReps - w.remaining = w.seed := by omega
  refine ⟨?_, ?_, hbooks.total, ?_, results_of_books hsame hreps hbooks,
    perm_singleThread hsame hreps hbooks⟩
  · rw [hk]
    exact hseeds
  · intro i hi
    refine hbooks.conserved.one_place (hbooks.nodup_seeds hreps) ?_
    rw [hseeds]
    exact List.mem_map.mpr ⟨i, List.mem_range.mpr (by omega), rfl⟩
  · intro s
    exact ⟨hbooks.conserved.received_prefix s,
      (hbooks.pairwise_seeds hreps).sublist (itemsOf_sublist s w.launched)⟩

/-- Two nodes and two repetitions: the second node is done first. -/
def sampleEvents : List (Event ℕ) :=
  [.spawn, .spawn, .spawn, .spawn, .complete 1 0, .collect, .collect, .collect, .collect,
    .complete 0 0, .collect, .collect, .collect, .collect, .collect]

/-- The two results of the sample are collected, in the order in which they are ready. -/
theorem repetitions_exactly_once_sample :
    ∃ w : Wrapper ℕ (Result ℚ), w.remaining = 0 ∧ w.repetitionResultsVector.length = 2 ∧
      List.Forall₂ (fun p r => ∃ i : ℕ, p.2 = (i : ℤ) ∧ i < 2 ∧
        solve 4 sampleLib sampleH (1 / 10) 3 2 i = .ok r) w.collected
        w.repetitionResultsVector := by
  have hrun : ((after
      (Wrapper.step fun _ seed => asyncSolve 4 sampleLib (saSolver sampleH) (1 / 10) 3 2 seed)
      sampleEvents ((Wrapper.created 0 1 [0, 1]).spawnCall 2)).map fun w =>
        (w.remaining, w.totalCompleted)) = some (0, 2) := by decide +kernel
  obtain ⟨w, hw, hcounts⟩ := Option.map_eq_some_iff.mp hrun
  obtain ⟨hrem, htotal⟩ := Prod.mk.inj hcounts
  obtain ⟨-, -, hsize, -, hresults, -⟩ := repetitions_exactly_once 4 sampleLib sampleH
    (fun _ => rfl) (1 / 10) 3 2 (by decide) (by decide) ⟨sampleEvents, by simp, hw⟩
  exact ⟨w, hrem, by rw [← hsize, htotal], hresults⟩

end SpinGlass
