import SpinGlass.Distribution
import SpinGlass.IntegerEnergies
import SpinGlass.ResultFile

/-!
# Pipeline — from the lattice file to the numbers that the analysis has

A lattice file with integer couplings goes through the constructor, the
runs, the output file and `LoadSaData`: what Python holds at the end are the
energies of the file for the spins of the results, one for each result.
The distributed program's file has the numbers of the single-threaded one.
-/

namespace SpinGlass

open Transition CountedLoop MultiSpin Text

variable {L G : Type}

/-- A lattice file whose energies can be written and read: it can be constructed, repeats
no site on a line, has integer couplings with energies of at most six digits, and a name
that is one line of the header. -/
structure Lattice (fuel : ℕ) (stod : Str → Option ℚ) where
  infile : Str
  text : Str
  H : HamiltonianType ℚ
  couplings : List ℤ
  built : hamiltonianType fuel stod text = .ok H
  once : NoSiteTwice text
  integer : IntegerCouplings stod text couplings
  small : (couplings.map fun j => |j|).sum < 10 ^ 6
  oneLine : '\n' ∉ infile
  returns : CommentedReturns infile

/-- `main` of the single-threaded program, on the text of the input file: the text of the
output file. -/
def singleThreadMain (fuel : ℕ) (lib : Numerics ℚ G) (stod : Str → Option ℚ) (infile text : Str)
    (beta0 beta1 : ℚ) (Ns numRep : ℕ) : Exec Str := do
  let H ← hamiltonianType fuel stod text
  let x ← singleThread fuel lib H beta0 beta1 Ns numRep
  .ok (resultFile infile Ns beta0 beta1 numRep x)

/-- The output file of the distributed program, after `spawn` has returned. -/
def Cluster.outputFile [LinearOrder L] (job : Job L ℚ G) (infile : Str) (g : Cluster L ℚ) :
    Option Str :=
  match g.console.wrappedSolver.spawnAt with
  | .returned x => some (resultFile infile job.Ns job.beta0 job.beta1 job.numReps x)
  | _ => none

namespace Lattice

variable {fuel : ℕ} {stod : Str → Option ℚ} (lattice : Lattice fuel stod)

/-- The energy of the file for the spins of a result. -/
def energy (r : Result ℚ) : ℚ :=
  fileEnergy stod lattice.text
    (bitsOf (siteNames (couplingLines stod lattice.text)) r.spins_)

/-- The result is one of a run on the lattice. -/
def Solves (r : Result ℚ) : Prop :=
  ∃ (G : Type) (lib : Numerics ℚ G) (beta0 beta1 : ℚ) (Ns seed runFuel : ℕ),
    solve runFuel lib lattice.H beta0 beta1 Ns seed = .ok r

variable {lattice}

theorem Solves.energy_eq {r : Result ℚ} (h : lattice.Solves r) :
    r.E_ = lattice.energy r := by
  obtain ⟨G, lib, beta0, beta1, Ns, seed, runFuel, hr⟩ := h
  exact (solve_eq_fileEnergy lattice.once lattice.built hr).2

/-- It is an integer of at most six digits. -/
theorem Solves.exists_energy {r : Result ℚ} (h : lattice.Solves r) :
    ∃ n : ℤ, lattice.energy r = (n : ℚ) ∧ n.natAbs < 10 ^ 6 := by
  obtain ⟨G, lib, beta0, beta1, Ns, seed, runFuel, hr⟩ := h
  obtain ⟨hc, -⟩ := solve_eq_fileEnergy lattice.once lattice.built hr
  obtain ⟨n, hn, hgrid⟩ := lattice.integer.fileEnergy (hc.bitsOf _)
  have hbound := Int.lt_of_le_of_lt hgrid.bound lattice.small
  rw [Int.abs_eq_natAbs] at hbound
  exact ⟨n, hn, by omega⟩

theorem exists_energies {x : List (Result ℚ)} (h : ∀ r ∈ x, lattice.Solves r) :
    ∃ es : List ℤ, es.map (fun n : ℤ => (n : ℚ)) = x.map lattice.energy ∧
      ∀ n ∈ es, n.natAbs < 10 ^ 6 := by
  induction x with
  | nil => exact ⟨[], rfl, by simp⟩
  | cons r x ih =>
      obtain ⟨es, hes, hsmall⟩ := ih fun r' hr' => h r' (List.mem_cons_of_mem _ hr')
      obtain ⟨n, hn, hlt⟩ := (h r List.mem_cons_self).exists_energy
      refine ⟨n :: es, by rw [List.map_cons, List.map_cons, hes, hn], fun m hm => ?_⟩
      rcases List.mem_cons.mp hm with rfl | hm
      · exact hlt
      · exact hsmall m hm

/-- **What has been written is read back**: the energies of the file, one for each result. -/
theorem loadSaData_resultFile {x : List (Result ℚ)} (h : ∀ r ∈ x, lattice.Solves r) (Ns : ℕ)
    (beta0 beta1 : ℚ) (numRep : ℕ) :
    ∃ es : List ℤ, loadSaData (resultFile lattice.infile Ns beta0 beta1 numRep x) = .ok es ∧
      es.map (fun n : ℤ => (n : ℚ)) = x.map lattice.energy := by
  obtain ⟨es, hes, hsmall⟩ := exists_energies h
  have hpairs : List.Forall₂ (fun (r : Result ℚ) (n : ℤ) => r.E_ = (n : ℚ)) x es := by
    have hE : x.map Result.E_ = es.map fun n : ℤ => (n : ℚ) := by
      rw [hes]
      exact List.map_congr_left fun r hr => (h r hr).energy_eq
    rw [← List.forall₂_eq_eq_eq, List.forall₂_map_left_iff, List.forall₂_map_right_iff] at hE
    exact hE
  obtain ⟨lines, hlines, hcomments⟩ :=
    getlines_resultFile lattice.oneLine Ns beta0 beta1 numRep x
  have hnone : dataLines lines = [] := by
    rw [dataLines, List.filter_eq_nil_iff]
    intro line hline
    simpa using hcomments.mpr lattice.returns line hline
  have hdata : dataLines (lines ++ x.map resultLine) = x.map resultLine := by
    rw [dataLines, List.filter_append, ← dataLines, ← dataLines, hnone, List.nil_append,
      dataLines_resultLines]
  refine ⟨es, ?_, hes⟩
  rw [loadSaData, hlines, loadLines_ok_iff, hdata]
  exact ⟨es, rfl, (readAs_resultLines_iff hpairs).mpr hsmall⟩

end Lattice

/-- The sample file under the name of a shipped lattice. -/
def sampleLattice : Lattice 4 stodInteger where
  infile := "128random0.lat".toList
  text := sampleText
  H := sampleH
  couplings := [2, -1]
  built := by decide
  once := by
    unfold NoSiteTwice
    decide
  integer := by
    unfold IntegerCouplings
    decide +kernel
  small := by decide
  oneLine := by decide
  returns := by
    intro u v h
    have hmem : '\r' ∈ u ++ '\r' :: v := by simp
    rw [← h] at hmem
    exact absurd hmem (by decide)

theorem exists_of_forall₂ {α β : Type} {R : α → β → Prop} {l : List α} {m : List β}
    (h : List.Forall₂ R l m) {b : β} (hb : b ∈ m) : ∃ a ∈ l, R a b := by
  induction h with
  | nil => cases hb
  | cons hR _ ih =>
      rcases List.mem_cons.mp hb with rfl | hb
      · exact ⟨_, List.mem_cons_self, hR⟩
      · obtain ⟨a, ha, hR⟩ := ih hb
        exact ⟨a, List.mem_cons_of_mem _ ha, hR⟩

namespace Cluster

variable [LinearOrder L]

/-- **The distributed program's output is the single-threaded program's, for the analysis.**
Whenever `spawn` has returned on rank `0`, by whatever order of joins, messages and steps,
`LoadSaData` reads the output file, and finds the energy of the lattice file for the spins
of each result; when there is a result for every repetition, these are the numbers in the
file of the single-threaded program, up to their order. -/
theorem output_read_back (job : Job L ℚ G) (nranks : ℕ) (lattice : Lattice job.fuel job.stod)
    (htext : job.text = lattice.text) (hreps : job.numReps < 2 ^ 31) {g : Cluster L ℚ}
    (hreach : Reaches (step job) (fun _ => True) (initial job nranks) g)
    {y : List (Result ℚ)} (hy : g.console.wrappedSolver.spawnAt = .returned y) :
    ∃ out es, outputFile job lattice.infile g = some out ∧ loadSaData out = .ok es ∧
      es.map (fun n : ℤ => (n : ℚ)) = y.map lattice.energy ∧
      (y.length = job.numReps → ∃ out' es',
        singleThreadMain job.fuel job.lib job.stod lattice.infile lattice.text job.beta0
          job.beta1 job.Ns job.numReps = .ok out' ∧ loadSaData out' = .ok es' ∧
        es.Perm es') := by
  have hload : load job = .ok lattice.H := by
    rw [load, htext]
    exact lattice.built
  have hvector := returned_eq job nranks hload hreach hy
  have hsolves : ∀ r ∈ y, lattice.Solves r := by
    intro r hr
    rw [hvector] at hr
    obtain ⟨p, -, i, -, -, hi⟩ :=
      exists_of_forall₂ (vector_solved job nranks hload hreps hreach) hr
    exact ⟨G, job.lib, job.beta0, job.beta1, job.Ns, i, job.fuel, hi⟩
  obtain ⟨es, hread, hes⟩ :=
    lattice.loadSaData_resultFile hsolves job.Ns job.beta0 job.beta1 job.numReps
  refine ⟨_, es, by rw [outputFile, hy], hread, hes, fun hlength => ?_⟩
  rw [hvector] at hlength
  obtain ⟨x, hx, hperm⟩ := vector_perm job nranks hload hreps hreach hlength
  rw [← hvector] at hperm
  obtain ⟨es', hread', hes'⟩ := lattice.loadSaData_resultFile
    (fun r hr => hsolves r (hperm.mem_iff.mpr hr)) job.Ns job.beta0 job.beta1 job.numReps
  refine ⟨_, es', ?_, hread', ?_⟩
  · rw [singleThreadMain, lattice.built, ok_bind, hx, ok_bind]
  · have henergies := hperm.map lattice.energy
    rw [← hes, ← hes'] at henergies
    exact (List.map_perm_map_iff Int.cast_injective).mp henergies

/-- After both results have been collected the operator quits. -/
def sampleReturn : List (ClusterEvent ℕ) :=
  sampleEnd ++ [.console (.solver .spawn), .console (.solver .collect),
    .console (.solver .collect), .console (.solver .abort), .console (.solver .collect),
    .console (.solver .spawn)]

/-- The output of the sample has two numbers. -/
theorem output_read_back_sample : ∃ (g : Cluster ℕ ℚ) (out : Str) (es : List ℤ),
    outputFile sampleJob "128random0.lat".toList g = some out ∧ loadSaData out = .ok es ∧
      es.length = 2 := by
  have hrun : ((after (step sampleJob) sampleReturn (initial sampleJob 2)).map fun g =>
      g.console.wrappedSolver.spawnAt) = some (.returned
        [{ E_ := -3, spins_ := [0, 1, 0] }, { E_ := -3, spins_ := [0, 1, 0] }]) := by
    decide +kernel
  obtain ⟨g, hg, hreturned⟩ := Option.map_eq_some_iff.mp hrun
  obtain ⟨out, es, hout, hes, henergies, -⟩ := output_read_back sampleJob 2 sampleLattice rfl
    (by decide) ⟨sampleReturn, by simp, hg⟩ hreturned
  exact ⟨g, out, es, hout, hes, by simpa using congrArg List.length henergies⟩

end Cluster

end SpinGlass
