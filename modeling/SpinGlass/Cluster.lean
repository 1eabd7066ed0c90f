import SpinGlass.Console
import SpinGlass.Repetitions
import SpinGlass.Lib.Network

/-!
# Cluster — the processes of a run and the messages between them

Rank `0` is the `Console`. Every other process executes `hpx_main` up to the
message that it is connecting, and then waits for work: it creates a solver
wrapper when the action `initialize_solver_wrapper` arrives, and runs a solve
on a copy of the wrapped solver when `run_one` arrives. Rank `0` is a locality
like the others in this respect. An action and its answer are a message each;
messages can overtake each other.

A step is `none` where the source has no defined behaviour, such as the use
of a pointer that has not been set, and where a thread waits.
-/

namespace SpinGlass

open Transition Network

/-- The command line of rank `0` and the text of the input file. -/
structure Job (L K G : Type) where
  here : L
  osThreads : ℕ
  stod : Str → Option K
  text : Str
  fuel : ℕ
  lib : Numerics K G
  beta0 : K
  beta1 : K
  Ns : ℕ
  numReps : ℕ

/-- What is sent between localities. -/
inductive Message (L K : Type) where
  /-- `add_solver_state(locality, CONNECTING)`. -/
  | connecting (locality : L)
  /-- `initialize_solver_wrapper(H)` on a locality. -/
  | initializeSolverWrapper (locality : L) (H : HamiltonianType K)
  /-- It has returned. -/
  | initialized (locality : L)
  /-- `run_one(beta0, beta1, Ns, seed)` on a solver wrapper. -/
  | runOne (id : WrapperId L) (seed : ℤ)
  /-- It has returned. -/
  | result (id : WrapperId L) (seed : ℤ) (r : Result K)

/-- A process, as far as it is not the console. -/
structure Node (K : Type) where
  /-- `hpx_main` has sent its message. -/
  notified : Bool := false
  /-- `_theSolver` of the wrapper that `scheduler.getSolver()` points to. -/
  theSolver : Option (SaSolver K) := none

structure Cluster (L K : Type) [LinearOrder L] where
  console : Console L (Result K)
  nodes : L → Node K := fun _ => {}
  /-- `spinsolver::hamiltonian` on rank `0`. -/
  hamiltonian : Option (HamiltonianType K) := none
  /-- The localities `l` for which `/solver_wrapper/l` is registered. -/
  names : List L := []
  network : List (Message L K) := []

/-- What can happen. -/
inductive ClusterEvent (L : Type) where
  /-- `hpx_main` on another locality sends its message. -/
  | notify (locality : L)
  /-- A step of rank `0` for which no message is needed. -/
  | console (e : ConsoleEvent L)
  /-- The message at a position of the network is delivered. -/
  | deliver (k : ℕ)
  deriving DecidableEq, Repr

/-- The steps of rank `0` for which no message is needed. -/
def ConsoleEvent.internal {L : Type} : ConsoleEvent L → Bool
  | .main | .monitor => true
  | .solver .spawn | .solver .collect | .solver .abort | .solver .shutdown => true
  | .connecting _ | .initDone _ => false
  | .solver (.complete _ _) | .solver (.addSolverId _) | .solver (.setSolverIds _) => false

/-- The steps of rank `0` that go through `scheduler.getSolver()`: the calls of `setSolverIds`,
`spawn` and `addSolverId`, the two threads of `spawn`, and the quit command. -/
def ConsoleEvent.usesSolver {L : Type} (mainAt : MainAt) : ConsoleEvent L → Bool
  | .main => mainAt = .polling || mainAt = .registered
  | .initDone _ | .solver .spawn | .solver .collect | .solver .abort => true
  | .connecting _ | .monitor => false
  | .solver (.complete _ _) | .solver .shutdown => false
  | .solver (.addSolverId _) | .solver (.setSolverIds _) => true

/-- The future waits for the result of this seed. -/
def Task.waitsFor {R : Type} (seed : ℤ) (t : Task R) : Bool := t.seed = seed && t.value.isNone

namespace Cluster

variable {L K G : Type} [LinearOrder L] [Field K] [LinearOrder K]

/-- `std::make_shared<hamiltonian_type>(infile)`. -/
def load (job : Job L K G) : Exec (HamiltonianType K) :=
  hamiltonianType job.fuel job.stod job.text

/-- What `run_one` returns on a wrapper around `theSolver`. -/
def answer (job : Job L K G) (theSolver : SaSolver K) (seed : ℤ) : Option (Result K) :=
  asyncSolve job.fuel job.lib theSolver job.beta0 job.beta1 job.Ns seed

/-- The actions that rank `0` sends in a step: `initialize_solver_wrapper` for every
`init_node` it starts, with `*spinsolver::hamiltonian`, and `run_one` for every launch. -/
def requests (hamiltonian : Option (HamiltonianType K)) (c c' : Console L (Result K)) :
    Option (List (Message L K)) :=
  let solves := (c'.wrappedSolver.launched.drop c.wrappedSolver.launched.length).map
    fun p => Message.runOne p.1 p.2
  match c'.started.drop c.started.length, hamiltonian with
  | [], _ => some solves
  | started, some H => some (started.map (fun l => Message.initializeSolverWrapper l H) ++ solves)
  | _, none => none

/-- `_solver_instance` of rank `0` is set, if the step needs it. -/
def HasSolver (job : Job L K G) (e : ConsoleEvent L) (g : Cluster L K) : Prop :=
  e.usesSolver g.console.mainAt = true → (g.nodes job.here).theSolver.isSome = true

instance (job : Job L K G) (e : ConsoleEvent L) (g : Cluster L K) :
    Decidable (HasSolver job e g) :=
  inferInstanceAs (Decidable (_ → _))

/-- A step of rank `0`, where `value` is what a future becomes ready with. -/
def consoleStep (job : Job L K G) (value : Option (Result K)) (e : ConsoleEvent L)
    (g : Cluster L K) : Option (Cluster L K) :=
  if HasSolver job e g then
    (Console.step (fun _ _ => value) job.here job.osThreads job.numReps e g.console).bind
      fun c => (requests g.hamiltonian g.console c).map fun ms =>
        { g with console := c, network := g.network ++ ms }
  else none

/-- A step of rank `0` for which no message is needed: between `set_solver_state` and
`init_node(here)` the main thread loads the Hamiltonian. -/
def localStep (job : Job L K G) (e : ConsoleEvent L) (g : Cluster L K) : Option (Cluster L K) :=
  if e.internal = false then none
  else if e = .main ∧ g.console.mainAt = .stated ∧ g.hamiltonian.isNone then
    match load job with
    | .ok H => some { g with hamiltonian := some H }
    | .error _ => none
  else consoleStep job none e g

/-- `hpx_main` on another locality. -/
def notifyStep (job : Job L K G) (l : L) (g : Cluster L K) : Option (Cluster L K) :=
  if l = job.here ∨ (g.nodes l).notified then none
  else some { g with
    nodes := Function.update g.nodes l { g.nodes l with notified := true }
    network := g.network ++ [.connecting l] }

/-- `initialize_solver_wrapper(H)` on a locality, with `solver_manager::initialize`: a name
is registered once. -/
def initializeSolverWrapper (l : L) (H : HamiltonianType K) (g : Cluster L K) :
    Option (Cluster L K) :=
  if g.names.contains l then none
  else some { g with
    nodes := Function.update g.nodes l { g.nodes l with theSolver := some (saSolver H) }
    names := g.names ++ [l]
    network := g.network ++ [.initialized l] }

/-- `run_one` on a locality. -/
def runOneStep (job : Job L K G) (id : WrapperId L) (seed : ℤ) (g : Cluster L K) :
    Option (Cluster L K) :=
  (g.nodes id.locality).theSolver.bind fun theSolver =>
    (answer job theSolver seed).map fun r =>
      { g with network := g.network ++ [.result id seed r] }

/-- What a message does where it arrives. -/
def receive (job : Job L K G) : Message L K → Cluster L K → Option (Cluster L K)
  | .connecting l, g => consoleStep job none (.connecting l) g
  | .initializeSolverWrapper l H, g => initializeSolverWrapper l H g
  | .initialized l, g =>
      -- the continuation resolves the name
      if g.names.contains l then consoleStep job none (.initDone l) g else none
  | .runOne id seed, g => runOneStep job id seed g
  | .result id seed r, g =>
      ((g.console.wrappedSolver.asyncResults id).findIdx? (Task.waitsFor seed)).bind
        fun j => consoleStep job (some r) (.solver (.complete id j)) g

/-- What an event does. -/
def step (job : Job L K G) : ClusterEvent L → Cluster L K → Option (Cluster L K)
  | .notify l, g => notifyStep job l g
  | .console e, g => localStep job e g
  | .deliver k, g => (take k g.network).bind fun p => receive job p.1 { g with network := p.2 }

/-- Before `hpx_main` on any locality. -/
def initial (job : Job L K G) (nranks : ℕ) : Cluster L K :=
  { console := Console.initial nranks job.osThreads }

/-! ## What an event does, case by case -/

/-- Why rank `0` takes a step, and what is left of the network: `value` is what a future
becomes ready with. -/
inductive Cause (job : Job L K G) (g : Cluster L K) :
    ClusterEvent L → ConsoleEvent L → Option (Result K) → List (Message L K) → Prop
  | internal {e} : e.internal = true → Cause job g (.console e) e none g.network
  | connecting {k l rest} : take k g.network = some (.connecting l, rest) →
      Cause job g (.deliver k) (.connecting l) none rest
  | initialized {k l rest} : take k g.network = some (.initialized l, rest) → l ∈ g.names →
      Cause job g (.deliver k) (.initDone l) none rest
  | result {k id seed r rest j} : take k g.network = some (.result id seed r, rest) →
      (g.console.wrappedSolver.asyncResults id)[j]? = some ⟨seed, none⟩ →
      Cause job g (.deliver k) (.solver (.complete id j)) (some r) rest

/-- Everything an event can do: the guard of the case, and the state after it. -/
inductive Happens (job : Job L K G) : ClusterEvent L → Cluster L K → Cluster L K → Prop
  | notify {g l} : l ≠ job.here → (g.nodes l).notified = false →
      Happens job (.notify l) g { g with
        nodes := Function.update g.nodes l { g.nodes l with notified := true }
        network := g.network ++ [.connecting l] }
  | load {g H} : g.console.mainAt = .stated → g.hamiltonian = none → load job = .ok H →
      Happens job (.console .main) g { g with hamiltonian := some H }
  | console {g ev e value rest c ms} : Cause job g ev e value rest →
      Console.step (fun _ _ => value) job.here job.osThreads job.numReps e g.console = some c →
      requests g.hamiltonian g.console c = some ms → HasSolver job e g →
      Happens job ev g { g with console := c, network := rest ++ ms }
  | createSolver {g k l H rest} :
      take k g.network = some (.initializeSolverWrapper l H, rest) → l ∉ g.names →
      Happens job (.deliver k) g { g with
        nodes := Function.update g.nodes l { g.nodes l with theSolver := some (saSolver H) }
        names := g.names ++ [l]
        network := rest ++ [.initialized l] }
  | runOne {g k id seed rest theSolver r} : take k g.network = some (.runOne id seed, rest) →
      (g.nodes id.locality).theSolver = some theSolver →
      answer job theSolver seed = some r →
      Happens job (.deliver k) g { g with network := rest ++ [.result id seed r] }

variable {job : Job L K G} {g g' : Cluster L K}

omit [Field K] [LinearOrder K] in
theorem consoleStep_eq_some {value : Option (Result K)} {e : ConsoleEvent L} :
    consoleStep job value e g = some g' ↔ HasSolver job e g ∧ ∃ c ms,
      Console.step (fun _ _ => value) job.here job.osThreads job.numReps e g.console = some c ∧
        requests g.hamiltonian g.console c = some ms ∧
        g' = { g with console := c, network := g.network ++ ms } := by
  constructor
  · intro h
    unfold consoleStep at h
    split at h
    · rename_i hsolver
      obtain ⟨c, hc, hms⟩ := Option.bind_eq_some_iff.mp h
      obtain ⟨ms, hms, hg'⟩ := Option.map_eq_some_iff.mp hms
      exact ⟨hsolver, c, ms, hc, hms, hg'.symm⟩
    · cases h
  · rintro ⟨hsolver, c, ms, hc, hms, rfl⟩
    rw [consoleStep, if_pos hsolver, hc, Option.bind_some, hms, Option.map_some]

theorem localStep_happens {e : ConsoleEvent L} (h : localStep job e g = some g') :
    Happens job (.console e) g g' := by
  unfold localStep at h
  split at h
  · cases h
  · rename_i hinternal
    split at h
    · rename_i hload
      obtain ⟨rfl, hat, hnone⟩ := hload
      split at h
      · rename_i H hH
        cases h
        exact Happens.load hat (Option.isNone_iff_eq_none.mp hnone) hH
      · cases h
    · obtain ⟨hsolver, c, ms, hc, hms, rfl⟩ := consoleStep_eq_some.mp h
      exact Happens.console (Cause.internal (by simpa using hinternal)) hc hms hsolver

theorem getElem?_of_findIdx? {R : Type} {seed : ℤ} {tasks : List (Task R)} {j : ℕ}
    (h : tasks.findIdx? (Task.waitsFor seed) = some j) : tasks[j]? = some ⟨seed, none⟩ := by
  obtain ⟨hj, hwaits, -⟩ := List.findIdx?_eq_some_iff_getElem.mp h
  rw [List.getElem?_eq_getElem hj]
  obtain ⟨hseed, hvalue⟩ : tasks[j].seed = seed ∧ tasks[j].value = none := by
    simpa [Task.waitsFor] using hwaits
  rw [← hseed, ← hvalue]

theorem receive_happens {k : ℕ} {m : Message L K} {rest : List (Message L K)}
    (hm : take k g.network = some (m, rest))
    (h : receive job m { g with network := rest } = some g') :
    Happens job (.deliver k) g g' := by
  cases m with
  | connecting l =>
      obtain ⟨hsolver, c, ms, hc, hms, rfl⟩ := consoleStep_eq_some.mp h
      exact Happens.console (Cause.connecting hm) hc hms hsolver
  | initializeSolverWrapper l H =>
      simp only [receive, initializeSolverWrapper] at h
      split at h
      · cases h
      · rename_i hnew
        cases h
        exact Happens.createSolver hm (by simpa using hnew)
  | initialized l =>
      simp only [receive] at h
      split at h
      · rename_i hname
        obtain ⟨hsolver, c, ms, hc, hms, rfl⟩ := consoleStep_eq_some.mp h
        exact Happens.console (Cause.initialized hm (List.contains_iff_mem.mp hname)) hc hms hsolver
      · cases h
  | runOne id seed =>
      obtain ⟨theSolver, hsolver, hanswer⟩ := Option.bind_eq_some_iff.mp h
      obtain ⟨r, hr, rfl⟩ := Option.map_eq_some_iff.mp hanswer
      exact Happens.runOne hm hsolver hr
  | result id seed r =>
      obtain ⟨j, hj, hstep⟩ := Option.bind_eq_some_iff.mp h
      obtain ⟨hsolver, c, ms, hc, hms, rfl⟩ := consoleStep_eq_some.mp hstep
      exact Happens.console (Cause.result hm (getElem?_of_findIdx? hj)) hc hms hsolver

/-- **The cases are all there are.** -/
theorem step_happens {e : ClusterEvent L} (h : step job e g = some g') : Happens job e g g' := by
  cases e with
  | notify l =>
      simp only [step, notifyStep] at h
      split at h
      · cases h
      · rename_i hguard
        cases h
        simp only [not_or, Bool.not_eq_true] at hguard
        exact Happens.notify hguard.1 hguard.2
  | console e => exact localStep_happens h
  | deliver k =>
      obtain ⟨⟨m, rest⟩, hm, hreceive⟩ := Option.bind_eq_some_iff.mp h
      exact receive_happens hm hreceive

end Cluster

end SpinGlass
