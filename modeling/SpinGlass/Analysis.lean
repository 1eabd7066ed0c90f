import SpinGlass.Pipeline

/-!
# Analysis — the success probabilities of the analysis script

`readTestData` is `ReadTestData` of the script, on the texts of the files
that it opens. It takes the number of results in the first file for the
number of instances. `float(success)/float(num_rep)` is the fraction itself.
-/

namespace SpinGlass

open CountedLoop Text Decimal

/-! ## The script -/

/-- What the script raises. -/
inductive ScriptError where
  /-- On a line of a file. -/
  | onLine (e : PyError)
  /-- `exact_ground_states[ii]`. -/
  | indexError
  /-- `next(f)` at the end of the file. -/
  | stopIteration
  | noSuchFile
  | zeroDivisionError
  deriving DecidableEq, Repr

/-- `open(filename)`, and what is done with the text. -/
def withOpen {α : Type} (read : Str → Except ScriptError α) : Option Str → Except ScriptError α
  | none => .error .noSuchFile
  | some text => read text

/-- `LoadSaData(filename)`. -/
def loadSaDataFile : Option Str → Except ScriptError (List ℤ) :=
  withOpen fun text => (loadSaData text).mapError .onLine

/-- `int(temp[1])`. -/
def exactEnergy (line : Str) : Except ScriptError ℤ :=
  match (split line)[1]? with
  | none => .error (.onLine .indexError)
  | some temp =>
      match int? temp with
      | none => .error (.onLine .valueError)
      | some n => .ok n

/-- `GetExactGroundState`, on the text of the file. -/
def exactGroundStates (text : Str) : Except ScriptError (List ℤ) :=
  match getlines '\n' (universalNewlines text) with
  | [] => .error .stopIteration
  -- `next(f)` skips the header
  | _ :: lines => lines.foldlM (fun exactEnergies line => do
      let n ← exactEnergy line
      .ok (exactEnergies ++ [n])) []

def getExactGroundState : Option Str → Except ScriptError (List ℤ) := withOpen exactGroundStates

/-- `if e == exact_ground_states[ii]: success += 1`. -/
def countSuccess (exactGroundStates : List ℤ) (ii success : ℕ) (e : ℤ) :
    Except ScriptError ℕ :=
  match exactGroundStates[ii]? with
  | none => .error .indexError
  | some ground => .ok (if e = ground then success + 1 else success)

/-- `float(success)/float(num_rep)`. -/
def divideFloat (success numRep : ℕ) : Except ScriptError ℚ :=
  if numRep = 0 then .error .zeroDivisionError else .ok ((success : ℚ) / (numRep : ℚ))

/-- One instance: the body of the loop of `ReadTestData`. -/
def successProb (exactGroundStates : List ℤ) (results : ℕ → Option Str) (numRep ii : ℕ) :
    Except ScriptError ℚ := do
  let achievedEnergies ← loadSaDataFile (results ii)
  let success ← achievedEnergies.foldlM (countSuccess exactGroundStates ii) 0
  divideFloat success numRep

/-- `ReadTestData`, where `results ii` is the text of `128random<ii>.dat`. -/
def readTestData (exactFile : Option Str) (results : ℕ → Option Str) :
    Except ScriptError (List ℚ) := do
  let exactGroundStates ← getExactGroundState exactFile
  let first ← loadSaDataFile (results 0)
  let numRep := first.length
  (List.range numRep).foldlM (fun allSuccessProb ii => do
    let p ← successProb exactGroundStates results numRep ii
    .ok (allSuccessProb ++ [p])) []

/-! ## One instance -/

/-- The energies that are the one at `ii` are counted; without an entry there, nothing may
be compared. -/
theorem countSuccess_eq_ok {exact : List ℤ} {ii success n : ℕ} {es : List ℤ} :
    es.foldlM (countSuccess exact ii) success = .ok n ↔
      (es = [] ∨ ii < exact.length) ∧ n = success + es.count (exact.getD ii 0) := by
  by_cases hii : ii < exact.length
  · have hget : exact[ii]? = some (exact.getD ii 0) := by
      rw [List.getD_eq_getElem _ _ hii, List.getElem?_eq_getElem hii]
    induction es generalizing success with
    | nil => simp [pure, Except.pure, eq_comm]
    | cons e es ih =>
        have hstep : countSuccess exact ii success e
            = .ok (if e = exact.getD ii 0 then success + 1 else success) := by
          rw [countSuccess, hget]
        rw [List.foldlM_cons, hstep, ok_bind]
        refine ih.trans ?_
        rw [List.count_cons]
        by_cases he : e = exact.getD ii 0
        · simp only [he, if_true, beq_self_eq_true, hii, or_true, true_and]
          omega
        · simp only [he, if_false, beq_iff_eq, hii, or_true, true_and]
          omega
  · have hget : exact[ii]? = none := List.getElem?_eq_none (by omega)
    cases es with
    | nil => simp [pure, Except.pure, eq_comm]
    | cons e es => simp [countSuccess, hii, error_bind]

theorem successProb_eq_ok {exact : List ℤ} {results : ℕ → Option Str} {numRep ii : ℕ} {p : ℚ} :
    successProb exact results numRep ii = .ok p ↔
      ∃ es, loadSaDataFile (results ii) = .ok es ∧ (es = [] ∨ ii < exact.length) ∧
        numRep ≠ 0 ∧ p = (es.count (exact.getD ii 0) : ℚ) / (numRep : ℚ) := by
  simp only [successProb, bind_eq_ok, countSuccess_eq_ok, divideFloat]
  constructor
  · rintro ⟨es, hes, n, ⟨hguard, rfl⟩, hdiv⟩
    split at hdiv
    · cases hdiv
    · rename_i hne
      cases hdiv
      exact ⟨es, hes, hguard, hne, by rw [Nat.zero_add]⟩
  · rintro ⟨es, hes, hguard, hne, rfl⟩
    exact ⟨es, hes, _, ⟨hguard, rfl⟩, by rw [if_neg hne, Nat.zero_add]⟩

/-! ## All instances -/

theorem readTestData_eq_ok {exactFile : Option Str} {results : ℕ → Option Str} {ps : List ℚ} :
    readTestData exactFile results = .ok ps ↔ ∃ exact first,
      getExactGroundState exactFile = .ok exact ∧ loadSaDataFile (results 0) = .ok first ∧
      List.Forall₂ (fun ii p => successProb exact results first.length ii = .ok p)
        (List.range first.length) ps := by
  simp only [readTestData, bind_eq_ok, foldlM_push_eq_ok, List.nil_append]
  constructor
  · rintro ⟨exact, hexact, first, hfirst, qs, rfl, hqs⟩
    exact ⟨exact, first, hexact, hfirst, hqs⟩
  · rintro ⟨exact, first, hexact, hfirst, hps⟩
    exact ⟨exact, hexact, first, hfirst, ps, rfl, hps⟩

/-! ## The files of the solver -/

section Files

variable {G : Type} {fuel runFuel Ns numRep : ℕ} {stod : Str → Option ℚ} {lib : Numerics ℚ G}
  {beta0 beta1 : ℚ} {lattice : Lattice fuel stod} {x y : List (Result ℚ)}

/-- The results of the single-threaded program are those of runs on the lattice, one for
each repetition. -/
theorem singleThread_solves
    (hx : singleThread runFuel lib lattice.H beta0 beta1 Ns numRep = .ok x) :
    x.length = numRep ∧ ∀ r ∈ x, lattice.Solves r := by
  obtain ⟨bs, rfl, hbs⟩ := foldlM_push_eq_ok.mp hx
  constructor
  · rw [← hbs.length_eq, List.length_range]
  · intro r hr
    obtain ⟨i, -, hi⟩ := exists_of_forall₂ hbs hr
    exact ⟨G, lib, beta0, beta1, Ns, i, runFuel, hi⟩

/-- How many of the results have this energy in the lattice file. -/
def Lattice.reached {fuel : ℕ} {stod : Str → Option ℚ} (lattice : Lattice fuel stod) (ground : ℤ)
    (x : List (Result ℚ)) : ℕ :=
  x.countP fun r => lattice.energy r = (ground : ℚ)

/-- Numbers that stand for energies are as often a given one as the energies are. -/
theorem count_energies {es : List ℤ}
    (hes : es.map (fun n : ℤ => (n : ℚ)) = y.map lattice.energy) (ground : ℤ) :
    es.count ground = lattice.reached ground y := by
  calc es.count ground
      = (es.map fun n : ℤ => (n : ℚ)).count (ground : ℚ) :=
        (List.count_map_of_injective es _ Int.cast_injective ground).symm
    _ = lattice.reached ground y := by
        rw [hes, List.count_eq_countP, List.countP_map]
        rfl

/-- The script reads a file of the solver, whatever the order of its results. -/
theorem loadSaDataFile_eq_ok
    (hx : singleThread runFuel lib lattice.H beta0 beta1 Ns numRep = .ok x) (hy : y.Perm x) :
    ∃ es, loadSaDataFile (some (resultFile lattice.infile Ns beta0 beta1 numRep y)) = .ok es ∧
      es.length = numRep ∧ ∀ ground, es.count ground = lattice.reached ground x := by
  obtain ⟨hlength, hsolves⟩ := singleThread_solves hx
  obtain ⟨es, hread, hes⟩ := lattice.loadSaData_resultFile
    (fun r hr => hsolves r (hy.mem_iff.mp hr)) Ns beta0 beta1 numRep
  refine ⟨es, ?_, ?_, fun ground => ?_⟩
  · show (loadSaData _).mapError _ = _
    rw [hread]
    rfl
  · have hsame := congrArg List.length hes
    rw [List.length_map, List.length_map, hy.length_eq, hlength] at hsame
    exact hsame
  · rw [count_energies hes ground]
    exact hy.countP_eq _

end Files

/-- **The success probabilities of the solver's files.** For `numRep` instances with
`numRep` repetitions each, and an exact energy for each instance: the script returns
for every instance the part of the repetitions of the single-threaded program whose spins
have the exact energy in the lattice file. It does so for the files of the distributed
program, too, since these have the same results in some order. -/
theorem success_probabilities {G : Type} {fuel runFuel Ns numRep : ℕ} {stod : Str → Option ℚ}
    (lib : Numerics ℚ G) (beta0 beta1 : ℚ) (lattice : ℕ → Lattice fuel stod)
    {x y : ℕ → List (Result ℚ)} (hreps : 0 < numRep)
    (hx : ∀ ii, ii < numRep →
      singleThread runFuel lib (lattice ii).H beta0 beta1 Ns numRep = .ok (x ii))
    (hy : ∀ ii, ii < numRep → (y ii).Perm (x ii)) {exactFile : Option Str} {exact : List ℤ}
    (hexact : getExactGroundState exactFile = .ok exact) (hlong : numRep ≤ exact.length)
    {results : ℕ → Option Str}
    (hresults : ∀ ii, ii < numRep →
      results ii = some (resultFile (lattice ii).infile Ns beta0 beta1 numRep (y ii))) :
    ∃ ps, readTestData exactFile results = .ok ps ∧ ps.length = numRep ∧
      ∀ ii, ii < numRep → ∃ p, ps[ii]? = some p ∧
        p = ((lattice ii).reached (exact.getD ii 0) (x ii) : ℚ) / (numRep : ℚ) ∧
        0 ≤ p ∧ p ≤ 1 ∧
        (p = 1 ↔ ∀ r ∈ x ii, (lattice ii).energy r = ((exact.getD ii 0 : ℤ) : ℚ)) := by
  have hfile : ∀ ii, ii < numRep → ∃ es, loadSaDataFile (results ii) = .ok es ∧
      es.length = numRep ∧ ∀ ground, es.count ground = (lattice ii).reached ground (x ii) := by
    intro ii hii
    rw [hresults ii hii]
    exact loadSaDataFile_eq_ok (hx ii hii) (hy ii hii)
  obtain ⟨first, hfirst, hlength, -⟩ := hfile 0 hreps
  have hprob : ∀ ii, ii < numRep → successProb exact results first.length ii
      = .ok (((lattice ii).reached (exact.getD ii 0) (x ii) : ℚ) / (numRep : ℚ)) := by
    intro ii hii
    obtain ⟨es, hes, -, hcount⟩ := hfile ii hii
    rw [successProb_eq_ok, hlength]
    exact ⟨es, hes, Or.inr (by omega), by omega, by rw [hcount]⟩
  have hpos : (0 : ℚ) < (numRep : ℚ) := by exact_mod_cast hreps
  refine ⟨(List.range numRep).map fun ii =>
    ((lattice ii).reached (exact.getD ii 0) (x ii) : ℚ) / (numRep : ℚ), ?_, by simp,
    fun ii hii => ?_⟩
  · rw [readTestData_eq_ok]
    refine ⟨exact, first, hexact, hfirst, ?_⟩
    subst hlength
    rw [List.forall₂_map_right_iff, List.forall₂_same]
    intro ii hii
    exact hprob ii (List.mem_range.mp hii)
  · obtain ⟨hsize, -⟩ := singleThread_solves (hx ii hii)
    have hle : (lattice ii).reached (exact.getD ii 0) (x ii) ≤ (x ii).length :=
      List.countP_le_length
    refine ⟨_, by rw [List.getElem?_map, List.getElem?_range hii]; rfl, rfl, ?_, ?_, ?_⟩
    · positivity
    · rw [div_le_one hpos, Nat.cast_le]
      omega
    · rw [div_eq_one_iff_eq hpos.ne', Nat.cast_inj, ← hsize, Lattice.reached,
        List.countP_eq_length]
      simp

/-- Both repetitions on the sample lattice end in its ground state, of energy `-3`. -/
theorem success_probabilities_sample :
    ∃ ps, readTestData (some "# Index Exact\n 0 -3\n 1 -3\n".toList)
      (fun _ => some (resultFile sampleLattice.infile 2 (1 / 10) 3 2
        [{ E_ := -3, spins_ := [0, 1, 0] }, { E_ := -3, spins_ := [0, 1, 0] }])) = .ok ps ∧
      ps.length = 2 := by
  have hx : singleThread 4 sampleLib sampleLattice.H (1 / 10) 3 2 2
      = .ok [{ E_ := -3, spins_ := [0, 1, 0] }, { E_ := -3, spins_ := [0, 1, 0] }] := by
    decide +kernel
  have hexact : getExactGroundState (some "# Index Exact\n 0 -3\n 1 -3\n".toList)
      = .ok [-3, -3] := by
    decide +kernel
  obtain ⟨ps, hps, hlength, -⟩ := success_probabilities sampleLib (1 / 10) 3
    (fun _ => sampleLattice) (by decide) (fun _ _ => hx) (fun _ _ => List.Perm.refl _) hexact
    (by decide) (fun _ _ => rfl)
  exact ⟨ps, hps, hlength⟩

end SpinGlass
