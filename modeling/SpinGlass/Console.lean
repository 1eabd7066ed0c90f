import SpinGlass.SolverWrapper
import SpinGlass.Lib.OrderedMap
import Mathlib.Data.Rat.Defs
import Mathlib.Order.Defs.LinearOrder
import Mathlib.Order.Lattice

/-!
# Console — locality `0`: how nodes are accepted

The process of rank `0`: the main thread from its first call in `hpx_main` to
`spawn`, the thread of `monitor`, the messages of the other localities and
the continuations of `init_node`. A section under a unique lock of
`state_mutex` is one step, and so is the visit of one entry by `monitor`,
which holds a shared lock from the first entry to the last. The names
`/solver_wrapper/<rank>` and the counters are resolved to valid ids.
-/

namespace SpinGlass

/-- `spinsolver::status`. -/
inductive Status where
  | connecting | initializing | ready | finalizing | disconnecting | invalid
  deriving DecidableEq, Repr

/-- The id that is registered as `/solver_wrapper/<rank>` for a locality. -/
structure WrapperId (L : Type) where
  locality : L
  deriving DecidableEq, Repr

/-- The id of the idle-rate counter of a locality. -/
structure CounterId (L : Type) where
  locality : L
  deriving DecidableEq, Repr

/-- `spinsolver::locality_data`. An id is `none` when it is `invalid_id`. -/
structure LocalityData (L : Type) where
  state : Status
  solverWrapper : Option (WrapperId L) := none
  idleCounter : Option (CounterId L) := none
  numWorkerThreads : ℕ := 0
  lastIdleRate : ℚ := 0
  deriving DecidableEq, Repr

/-- Where the main thread is in `hpx_main`. -/
inductive MainAt where
  | start
  /-- `set_solver_state(here, READY)` has been called. -/
  | stated
  /-- `init_node(here)` has been called: `fut.get()`. -/
  | initialising
  | initialised
  /-- The thread of `monitor` has been started. -/
  | monitoring
  /-- The thread of `poll_stdin` has been started. -/
  | polling
  /-- `setSolverIds` has been called. -/
  | registered
  /-- `spawn` has been called. -/
  | spawning
  deriving DecidableEq, Repr

namespace MainAt

/-- The position in the order of the program. -/
def toNat : MainAt → ℕ
  | start => 0
  | stated => 1
  | initialising => 2
  | initialised => 3
  | monitoring => 4
  | polling => 5
  | registered => 6
  | spawning => 7

theorem toNat_injective : Function.Injective toNat := by
  intro a b h
  cases a <;> cases b <;> first | rfl | cases h

instance : LinearOrder MainAt := LinearOrder.lift' toNat toNat_injective

end MainAt

/-- Where the thread of `monitor` is. -/
inductive MonitorAt (L : Type) where
  | off
  /-- Between two passes. -/
  | paused
  /-- In the loop over `locality_states`, with the localities still to come. -/
  | pass (rest : List L)
  /-- `throw std::runtime_error("Locality READY, but no counter")`. -/
  | thrown
  deriving DecidableEq, Repr

/-- The process of rank `0`, and what has happened in it so far. -/
structure Console (L R : Type) [LinearOrder L] where
  localityStates : OrderedMap L (LocalityData L)
  /-- `spinsolver::scheduler.getSolver()`. -/
  wrappedSolver : Wrapper (WrapperId L) R
  mainAt : MainAt := .start
  monitorAt : MonitorAt L := .off
  /-- The localities whose `CONNECTING` has arrived. -/
  connected : List L := []
  /-- The localities for which `init_node` has been started. -/
  started : List L := []
  /-- The localities for which it has completed, with its call of `addSolverId`. -/
  completed : List L := []

/-- What can happen. -/
inductive ConsoleEvent (L : Type) where
  /-- `add_solver_state(locality, CONNECTING)`, the message of another locality. -/
  | connecting (locality : L)
  /-- A step of the main thread. -/
  | main
  /-- A step of the thread of `monitor`. -/
  | monitor
  /-- The last continuation of `init_node(locality)`. -/
  | initDone (locality : L)
  /-- An event of the solver wrapper. -/
  | solver (e : Event (WrapperId L))
  deriving DecidableEq, Repr

namespace Console

variable {L R : Type} [LinearOrder L]

/-- `set_solver_state`. -/
def setSolverState (locality : L) (state : Status) (states : OrderedMap L (LocalityData L)) :
    OrderedMap L (LocalityData L) :=
  match states.find? locality with
  | some data => states.set locality { data with state := state }
  | none => states.set locality { state := state }

/-- `set_solver_state_data`: the data are assigned whether there is an entry or not. -/
def setSolverStateData (locality : L) (data : LocalityData L)
    (states : OrderedMap L (LocalityData L)) : OrderedMap L (LocalityData L) :=
  states.set locality data

/-- What `init_node` writes when it completes. -/
def readyData (osThreads : ℕ) (locality : L) : LocalityData L :=
  { state := .ready
    solverWrapper := some ⟨locality⟩
    idleCounter := some ⟨locality⟩
    numWorkerThreads := osThreads }

/-- `SolverIdForRank`, after `SolverIdForRank.clear()`. -/
def solverIdForRank : List (WrapperId L) := []

/-- `monitor` holds a shared lock on `state_mutex`. -/
def stateLocked (c : Console L R) : Bool :=
  match c.monitorAt with
  | .pass _ => true
  | _ => false

/-- The start of `init_node(locality)`. -/
def initNode (locality : L) (c : Console L R) : Console L R :=
  { c with started := c.started ++ [locality] }

/-- `add_solver_state`, which waits for `monitor`. A locality sends `CONNECTING` once. -/
def connectingStep (here locality : L) (c : Console L R) : Option (Console L R) :=
  if locality = here ∨ locality ∈ c.connected ∨ c.stateLocked = true then none
  else some { c with
    localityStates := setSolverState locality .connecting c.localityStates
    connected := c.connected ++ [locality] }

/-- A step of `hpx_main` on rank `0`. -/
def mainStep (here : L) (numReps : ℕ) (c : Console L R) : Option (Console L R) :=
  match c.mainAt with
  | .start => some { c with
      localityStates := setSolverState here .ready c.localityStates
      mainAt := .stated }
  | .stated => some { c.initNode here with mainAt := .initialising }
  | .initialising =>
      -- `fut.get()`
      if here ∈ c.completed then some { c with mainAt := .initialised } else none
  | .initialised => some { c with monitorAt := .paused, mainAt := .monitoring }
  | .monitoring => some { c with mainAt := .polling }
  | .polling =>
      if c.wrappedSolver.idsLocked then none
      else some { c with
        wrappedSolver := c.wrappedSolver.setSolverIds solverIdForRank
        mainAt := .registered }
  | .registered => some { c with
      wrappedSolver := c.wrappedSolver.spawnCall numReps
      mainAt := .spawning }
  | .spawning => none

/-- A step of `monitor`: the state of a locality is looked up when it is visited. -/
def monitorStep (c : Console L R) : Option (Console L R) :=
  match c.monitorAt with
  | .off => none
  | .paused => some { c with monitorAt := .pass c.localityStates.keys }
  | .pass [] => some { c with monitorAt := .paused }
  | .pass (l :: rest) =>
      (c.localityStates.find? l).map fun data =>
        match data.state, data.idleCounter with
        -- `hpx::apply(&init_node, l)` starts it on a thread of its own
        | .connecting, _ => { c.initNode l with
            localityStates := setSolverState l .initializing c.localityStates
            monitorAt := .pass rest }
        | .ready, none => { c with monitorAt := .thrown }
        | _, _ => { c with monitorAt := .pass rest }
  | .thrown => none

/-- The end of `init_node(locality)`, once for every start: it takes `state_mutex`, and in
`addSolverId` the mutex of the solver ids. -/
def initDoneStep (osThreads : ℕ) (locality : L) (c : Console L R) : Option (Console L R) :=
  if c.completed.count locality < c.started.count locality ∧ c.stateLocked = false ∧
      c.wrappedSolver.idsLocked = false then
    some { c with
      localityStates :=
        setSolverStateData locality (readyData osThreads locality) c.localityStates
      wrappedSolver := c.wrappedSolver.addSolverId ⟨locality⟩
      completed := c.completed ++ [locality] }
  else none

/-- The events of the solver wrapper that are not calls of the main thread or of
`init_node`: the quit command needs the thread of `poll_stdin`. -/
def solverEvent (mainAt : MainAt) : Event (WrapperId L) → Bool
  | .spawn | .collect | .complete _ _ => mainAt = .spawning
  | .abort => decide (.polling ≤ mainAt)
  | .shutdown => true
  | .addSolverId _ | .setSolverIds _ => false

/-- An event of the solver wrapper. -/
def solverStep (runOne : WrapperId L → ℤ → Option R) (e : Event (WrapperId L))
    (c : Console L R) : Option (Console L R) :=
  if solverEvent c.mainAt e then
    (Wrapper.step runOne e c.wrappedSolver).map fun w => { c with wrappedSolver := w }
  else none

/-- What an event does. -/
def step (runOne : WrapperId L → ℤ → Option R) (here : L) (osThreads numReps : ℕ) :
    ConsoleEvent L → Console L R → Option (Console L R)
  | .connecting locality, c => connectingStep here locality c
  | .main, c => mainStep here numReps c
  | .monitor, c => monitorStep c
  | .initDone locality, c => initDoneStep osThreads locality c
  | .solver e, c => solverStep runOne e c

/-- The process before `hpx_main`, with a solver wrapper as its constructor leaves it. -/
def initial (nranks osThreads : ℕ) : Console L R :=
  { localityStates := OrderedMap.empty
    wrappedSolver := Wrapper.wrappedSolverClass 0 nranks osThreads }

/-! ## What an entry should be -/

/-- The entry of a remote locality, by what has happened to it. -/
def remoteEntry (osThreads : ℕ) (c : Console L R) (l : L) : Option (LocalityData L) :=
  if l ∈ c.completed then some (readyData osThreads l)
  else if l ∈ c.started then some { state := .initializing }
  else if l ∈ c.connected then some { state := .connecting }
  else none

/-- The entry of rank `0`. -/
def ownEntry (osThreads : ℕ) (here : L) (c : Console L R) : Option (LocalityData L) :=
  if here ∈ c.completed then some (readyData osThreads here)
  else if c.mainAt = .start then none
  else some { state := .ready }

/-! ## What an event does, case by case -/

/-- Everything an event can do: the guard of the case, and the state after it. -/
inductive Happens (runOne : WrapperId L → ℤ → Option R) (here : L) (osThreads numReps : ℕ) :
    ConsoleEvent L → Console L R → Console L R → Prop
  | connecting {c locality} : locality ≠ here → locality ∉ c.connected →
      c.stateLocked = false →
      Happens runOne here osThreads numReps (.connecting locality) c
        { c with
          localityStates := setSolverState locality .connecting c.localityStates
          connected := c.connected ++ [locality] }
  | state {c} : c.mainAt = .start → Happens runOne here osThreads numReps .main c
      { c with
        localityStates := setSolverState here .ready c.localityStates
        mainAt := .stated }
  | initHere {c} : c.mainAt = .stated → Happens runOne here osThreads numReps .main c
      { c.initNode here with mainAt := .initialising }
  | wait {c} : c.mainAt = .initialising → here ∈ c.completed →
      Happens runOne here osThreads numReps .main c { c with mainAt := .initialised }
  | startMonitor {c} : c.mainAt = .initialised →
      Happens runOne here osThreads numReps .main c
        { c with monitorAt := .paused, mainAt := .monitoring }
  | startPoll {c} : c.mainAt = .monitoring →
      Happens runOne here osThreads numReps .main c { c with mainAt := .polling }
  | register {c} : c.mainAt = .polling → c.wrappedSolver.idsLocked = false →
      Happens runOne here osThreads numReps .main c
        { c with
          wrappedSolver := c.wrappedSolver.setSolverIds solverIdForRank
          mainAt := .registered }
  | callSpawn {c} : c.mainAt = .registered → Happens runOne here osThreads numReps .main c
      { c with
        wrappedSolver := c.wrappedSolver.spawnCall numReps
        mainAt := .spawning }
  | passStart {c} : c.monitorAt = .paused →
      Happens runOne here osThreads numReps .monitor c
        { c with monitorAt := .pass c.localityStates.keys }
  | passEnd {c} : c.monitorAt = .pass [] →
      Happens runOne here osThreads numReps .monitor c { c with monitorAt := .paused }
  | visitConnecting {c l rest data} : c.monitorAt = .pass (l :: rest) →
      c.localityStates.find? l = some data → data.state = .connecting →
      Happens runOne here osThreads numReps .monitor c
        { c.initNode l with
          localityStates := setSolverState l .initializing c.localityStates
          monitorAt := .pass rest }
  | visitInvalid {c l rest data} : c.monitorAt = .pass (l :: rest) →
      c.localityStates.find? l = some data → data.state = .ready → data.idleCounter = none →
      Happens runOne here osThreads numReps .monitor c { c with monitorAt := .thrown }
  | visit {c l rest data} : c.monitorAt = .pass (l :: rest) →
      c.localityStates.find? l = some data →
      Happens runOne here osThreads numReps .monitor c { c with monitorAt := .pass rest }
  | initDone {c locality} : c.completed.count locality < c.started.count locality →
      c.stateLocked = false → c.wrappedSolver.idsLocked = false →
      Happens runOne here osThreads numReps (.initDone locality) c
        { c with
          localityStates :=
            setSolverStateData locality (readyData osThreads locality) c.localityStates
          wrappedSolver := c.wrappedSolver.addSolverId ⟨locality⟩
          completed := c.completed ++ [locality] }
  | solver {c e w} : solverEvent c.mainAt e = true →
      Wrapper.Happens runOne e c.wrappedSolver w →
      Happens runOne here osThreads numReps (.solver e) c { c with wrappedSolver := w }

variable {runOne : WrapperId L → ℤ → Option R} {here : L} {osThreads numReps : ℕ}
  {c c' : Console L R}

theorem connectingStep_happens {locality : L} (h : connectingStep here locality c = some c') :
    Happens runOne here osThreads numReps (.connecting locality) c c' := by
  unfold connectingStep at h
  split at h
  · cases h
  · rename_i hguard
    simp only [not_or, Bool.not_eq_true] at hguard
    cases h
    exact Happens.connecting hguard.1 hguard.2.1 hguard.2.2

theorem mainStep_happens (h : mainStep here numReps c = some c') :
    Happens runOne here osThreads numReps .main c c' := by
  unfold mainStep at h
  cases hat : c.mainAt with
  | start =>
      simp only [hat, Option.some.injEq] at h
      cases h
      exact Happens.state hat
  | stated =>
      simp only [hat, Option.some.injEq] at h
      cases h
      exact Happens.initHere hat
  | initialising =>
      simp only [hat] at h
      split at h
      · rename_i hdone
        cases h
        exact Happens.wait hat hdone
      · cases h
  | initialised =>
      simp only [hat, Option.some.injEq] at h
      cases h
      exact Happens.startMonitor hat
  | monitoring =>
      simp only [hat, Option.some.injEq] at h
      cases h
      exact Happens.startPoll hat
  | polling =>
      cases hlock : c.wrappedSolver.idsLocked with
      | true => simp [hat, hlock] at h
      | false =>
          simp only [hat, hlock, Bool.false_eq_true, if_false, Option.some.injEq] at h
          cases h
          exact Happens.register hat hlock
  | registered =>
      simp only [hat, Option.some.injEq] at h
      cases h
      exact Happens.callSpawn hat
  | spawning => simp [hat] at h

theorem monitorStep_happens (h : monitorStep c = some c') :
    Happens runOne here osThreads numReps .monitor c c' := by
  unfold monitorStep at h
  cases hat : c.monitorAt with
  | off => simp [hat] at h
  | thrown => simp [hat] at h
  | paused =>
      simp only [hat, Option.some.injEq] at h
      cases h
      exact Happens.passStart hat
  | pass rest =>
      cases rest with
      | nil =>
          simp only [hat, Option.some.injEq] at h
          cases h
          exact Happens.passEnd hat
      | cons l rest =>
          simp only [hat] at h
          obtain ⟨data, hfind, hc'⟩ := Option.map_eq_some_iff.mp h
          split at hc'
          · rename_i hstate
            cases hc'
            exact Happens.visitConnecting hat hfind hstate
          · rename_i hstate hcounter
            cases hc'
            exact Happens.visitInvalid hat hfind hstate hcounter
          · cases hc'
            exact Happens.visit hat hfind

theorem initDoneStep_happens {locality : L} (h : initDoneStep osThreads locality c = some c') :
    Happens runOne here osThreads numReps (.initDone locality) c c' := by
  unfold initDoneStep at h
  split at h
  · rename_i hguard
    cases h
    exact Happens.initDone hguard.1 hguard.2.1 hguard.2.2
  · cases h

theorem solverStep_happens {e : Event (WrapperId L)} (h : solverStep runOne e c = some c') :
    Happens runOne here osThreads numReps (.solver e) c c' := by
  unfold solverStep at h
  split at h
  · rename_i hevent
    obtain ⟨w, hw, hc'⟩ := Option.map_eq_some_iff.mp h
    cases hc'
    exact Happens.solver hevent (Wrapper.step_happens hw)
  · cases h

/-- **The cases are all there are.** -/
theorem step_happens {e : ConsoleEvent L}
    (h : step runOne here osThreads numReps e c = some c') :
    Happens runOne here osThreads numReps e c c' := by
  cases e with
  | connecting locality => exact connectingStep_happens h
  | main => exact mainStep_happens h
  | monitor => exact monitorStep_happens h
  | initDone locality => exact initDoneStep_happens h
  | solver e => exact solverStep_happens h

end Console

end SpinGlass
