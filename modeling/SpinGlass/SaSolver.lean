import SpinGlass.Hamiltonian

/-!
# SaSolver — `sa_solver`: energies and simulated annealing

`computeEnergy`, `deltaEnergy` and `run` follow the methods of the class;
`sweep` is the inner loop of `run` and `anneal` the double loop. What `run`
takes from `<random>` and `<cmath>` is a parameter, `Numerics`: the engine,
its two distributions and `std::exp`.
-/

namespace SpinGlass

/-- `result`. -/
structure Result (K : Type) where
  E_ : K
  spins_ : List ℕ
  deriving DecidableEq, Repr

structure SaSolver (K : Type) where
  N_ : ℕ
  H_ : HamiltonianType K
  spins_ : List ℕ
  deriving DecidableEq, Repr

/-- `sa_solver::sa_solver(H)`. -/
def saSolver {K : Type} (H : HamiltonianType K) : SaSolver K :=
  { N_ := H.size, H_ := H, spins_ := [] }

/-- The copy constructor. -/
def SaSolver.copy {K : Type} (other : SaSolver K) : SaSolver K :=
  { N_ := other.N_, H_ := other.H_, spins_ := other.spins_ }

/-- The engine with state `G`, the distributions `binaries` and `realnums` on it,
and `std::exp`. -/
structure Numerics (K G : Type) where
  seed : ℕ → G
  binaries : G → Fin 2 × G
  realnums : G → K × G
  exp : K → K

/-- The local variables of `run`, and the object it runs on. -/
structure Annealing (K G : Type) where
  gen : G
  E : K
  self : SaSolver K

section Energy

variable {K : Type} [Field K] [LinearOrder K]

/-- `bool tmp(0); for (b : sites) tmp ^= spins_[b];` -/
def parity (spins : List ℕ) (sites : List ℕ) : Exec Bool :=
  sites.foldlM (fun tmp b => do
    let x ← load spins b
    .ok ((tmp.toNat ^^^ x) != 0)) false

/-- `2*tmp-1`, an `int`. -/
def signOfParity (tmp : Bool) : ℤ := 2 * tmp.toNat - 1

/-- `2*int(edge.first.size()%2) - 1`. -/
def signOfArity (sites : List ℕ) : ℤ := 2 * (sites.length % 2 : ℕ) - 1

/-- One edge of one node in `compute_energy`: its energy over its arity. -/
def addShare (spins : List ℕ) (E : K) (edge : EdgeType K) : Exec K := do
  let tmp ← parity spins edge.1
  let share ← divide ((signOfParity tmp : K) * edge.2 * (signOfArity edge.1 : K))
    (edge.1.length : K)
  .ok (E + share)

/-- `sa_solver::compute_energy`. -/
def computeEnergy (fuel : ℕ) (self : SaSolver K) : Exec K :=
  forUnsigned fuel self.N_ (fun i E => do
    let node ← load self.H_.nodes_ i
    node.foldlM (addShare self.spins_) E) 0

/-- One edge in `delta_energy`; `1-2*tmp` is the opposite of `2*tmp-1`. -/
def addChange (spins : List ℕ) (E : K) (edge : EdgeType K) : Exec K := do
  let tmp ← parity spins edge.1
  .ok (E + ((1 - 2 * tmp.toNat : ℤ) : K) * edge.2 * (signOfArity edge.1 : K))

/-- `sa_solver::delta_energy`. -/
def deltaEnergy (self : SaSolver K) (ind : ℕ) : Exec K := do
  let node ← load self.H_.nodes_ ind
  let E ← node.foldlM (addChange self.spins_) 0
  .ok (E * (2 : ℕ))

end Energy

section Run

variable {K G : Type} [Field K] [LinearOrder K]

/-- `dE <= 0.0 || realnums(gen) < std::exp(-beta*dE)`: the second test draws a
number, and fails when `beta` is not a number. -/
def accepts (lib : Numerics K G) (beta : Option K) (dE : K) (gen : G) : Bool × G :=
  if dE ≤ 0 then (true, gen)
  else
    let (d, gen) := lib.realnums gen
    match beta with
    | none => (false, gen)
    | some beta => (d < lib.exp (-beta * dE), gen)

/-- The body of the inner loop: spin `i` is turned over, or left. -/
def flipStep (lib : Numerics K G) (beta : Option K) (i : ℕ) (st : Annealing K G) :
    Exec (Annealing K G) := do
  let dE ← deltaEnergy st.self i
  let (accept, gen) := accepts lib beta dE st.gen
  if accept then do
    let s ← load st.self.spins_ i
    let spins ← store st.self.spins_ i (s ^^^ 1)
    .ok { gen := gen, E := st.E + dE, self := { st.self with spins_ := spins } }
  else .ok { st with gen := gen }

/-- The inner loop of `run`. -/
def sweep (fuel : ℕ) (lib : Numerics K G) (beta : Option K) (st : Annealing K G) :
    Exec (Annealing K G) :=
  forUnsigned fuel st.self.N_ (flipStep lib beta) st

/-- The double loop of `run`, with `beta s` for the value of `beta` in sweep `s`. -/
def anneal (fuel : ℕ) (lib : Numerics K G) (beta : ℕ → Option K) (Ns : ℕ)
    (st : Annealing K G) : Exec (Annealing K G) :=
  forUnsigned fuel Ns (fun s st => sweep fuel lib (beta s) st) st

/-- `beta0 + (beta1-beta0)/(Ns-1)*s`; `none` is the value that is not a number,
which a division by zero leaves behind. -/
def schedule (beta0 beta1 : K) (Ns s : ℕ) : Option K :=
  if pred64 Ns = 0 then none
  else some (beta0 + (beta1 - beta0) / (pred64 Ns : K) * (s : K))

/-- `for (unsigned i = 0; i < N_; ++i) spins_.push_back(binaries(gen));` -/
def pushSpins (fuel : ℕ) (lib : Numerics K G) (N : ℕ) (spins : List ℕ) (gen : G) :
    Exec (List ℕ × G) :=
  forUnsigned fuel N (fun _ p =>
    let (b, gen) := lib.binaries p.2
    .ok (p.1 ++ [b.val], gen)) (spins, gen)

/-- `sa_solver::run`, with the values of `beta` given for each sweep. -/
def runWith (fuel : ℕ) (lib : Numerics K G) (self : SaSolver K) (beta : ℕ → Option K)
    (Ns seed : ℕ) : Exec (Result K × SaSolver K) := do
  let gen := lib.seed seed
  -- `dice_roll` and `d_roll`
  let (_, gen) := lib.binaries gen
  let (_, gen) := lib.realnums gen
  let (spins, gen) ← pushSpins fuel lib self.N_ self.spins_ gen
  let self := { self with spins_ := spins }
  let E ← computeEnergy fuel self
  let st ← anneal fuel lib beta Ns { gen := gen, E := E, self := self }
  -- `res.spins_.swap(spins_)`
  .ok ({ E_ := st.E, spins_ := st.self.spins_ }, { st.self with spins_ := [] })

/-- `sa_solver::run`: the result, and the object afterwards. -/
def run (fuel : ℕ) (lib : Numerics K G) (self : SaSolver K) (beta0 beta1 : K)
    (Ns seed : ℕ) : Exec (Result K × SaSolver K) :=
  runWith fuel lib self (schedule beta0 beta1 Ns) Ns seed

/-- `solve`: a run on a fresh solver. -/
def solve (fuel : ℕ) (lib : Numerics K G) (H : HamiltonianType K) (beta0 beta1 : K)
    (Ns seed : ℕ) : Exec (Result K) := do
  let r ← run fuel lib (saSolver H) beta0 beta1 Ns seed
  .ok r.1

end Run

/-! ## A sample -/

/-- One step of `std::minstd_rand0`. -/
def minstdNext (x : ℕ) : ℕ := 16807 * x % 2147483647

/-- `std::minstd_rand0::seed`. -/
def minstdSeed (s : ℕ) : ℕ := if s % 2147483647 = 0 then 1 else s % 2147483647

/-- Distributions that read one number each off `std::minstd_rand0`, and a rational
function in the place of `std::exp` on negative numbers. -/
def sampleLib : Numerics ℚ ℕ where
  seed := minstdSeed
  binaries x := (⟨x / 1073741824 % 2, Nat.mod_lt _ (by decide)⟩, minstdNext x)
  realnums x := (((x : ℚ) - 1) / 2147483646, minstdNext x)
  exp x := 1 / (1 - x)

example : solve 4 sampleLib sampleH (1 / 10) 3 2 7
    = .ok { E_ := -3, spins_ := [0, 1, 0] } := by decide +kernel

end SpinGlass
