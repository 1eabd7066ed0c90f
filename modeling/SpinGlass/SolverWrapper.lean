import SpinGlass.Lib.Transition
import Mathlib.Algebra.Order.Ring.Int
import Mathlib.Logic.Function.Basic

/-!
# SolverWrapper — `wrapped_solver_class`: one call of `spawn`

The object and the two threads of a call of `spawn`: the one that executes
`spawn` itself, and the one that executes `remove_completed_solver_steps`.
An event is one step of a thread, the end of a solve on some node, or a call
of another method; `step` says what it does. A launch and a `front`/`pop` are
one step each. A method that takes `_solver_id_mutex` for itself is one step,
which cannot happen while one of the threads holds the shared lock.

`I` is the type of the ids of the solver wrappers, `R` the result type of the
solver, and `runOne s seed` what `run_one` returns on wrapper `s`, if it does.
-/

namespace SpinGlass

/-- What the future of a solve is known to hold: the seed that `run_one` was given, and
the result once the future is ready. -/
structure Task (R : Type) where
  seed : ℤ
  value : Option R
  deriving DecidableEq, Repr

/-- Where the thread in `spawn` is. -/
inductive SpawnAt (I R : Type) where
  /-- `spawn` has not been called. -/
  | idle
  /-- The test of the outer loop. -/
  | loopTest
  /-- In the `do` loop, before the shared lock is taken. -/
  | lock
  /-- In the `for` loop over the solvers, with those still to come. -/
  | launch (rest : List I) (enough : Bool)
  /-- `future_completed.get()`. -/
  | join
  | returned (results : List R)
  deriving DecidableEq, Repr

/-- Where the thread in `remove_completed_solver_steps` is. -/
inductive CollectAt (I : Type) where
  | idle
  /-- The test of the outer loop, and the pause before it. -/
  | loopTest
  /-- In the loop, before the shared lock is taken. -/
  | lock
  /-- In the `for` loop over the solvers, with those still to come. -/
  | pass (rest : List I)
  | done
  deriving DecidableEq, Repr

/-- The object, the local variables of the two threads, and what has been launched and
collected so far: the solver and the seed of every solve, in the order of the events. -/
structure Wrapper (I R : Type) where
  rank : ℕ
  nranks : ℕ
  osThreads : ℕ
  abort : Bool := false
  solverIds : List I := []
  asyncResults : I → List (Task R) := fun _ => []
  repetitionResultsVector : List R := []
  totalCompleted : ℕ := 0
  /-- `hpx::is_running()`. -/
  isRunning : Bool := true
  spawnAt : SpawnAt I R := .idle
  collectAt : CollectAt I := .idle
  remaining : ℕ := 0
  seed : ℕ := 0
  localSeedOffset : Option ℤ := none
  launched : List (I × ℤ) := []
  collected : List (I × ℤ) := []

/-- What can happen. -/
inductive Event (I : Type) where
  /-- A step of the thread in `spawn`. -/
  | spawn
  /-- A step of the thread in `remove_completed_solver_steps`. -/
  | collect
  /-- The solve behind future `j` of the queue of `s` returns. -/
  | complete (s : I) (j : ℕ)
  | addSolverId (id : I)
  | setSolverIds (ids : List I)
  | abort
  /-- The HPX runtime stops. -/
  | shutdown
  deriving DecidableEq, Repr

namespace Wrapper

variable {I R : Type}

/-- The constructor, which leaves `_nranks` as it finds it. -/
def wrappedSolverClass (rank nranks osThreads : ℕ) : Wrapper I R :=
  { rank := rank, nranks := nranks, osThreads := osThreads }

/-- A thread holds the shared lock on `_solver_id_mutex`. -/
def idsLocked (w : Wrapper I R) : Bool :=
  match w.spawnAt, w.collectAt with
  | .launch _ _, _ => true
  | _, .pass _ => true
  | _, _ => false

/-- `addSolverId`. -/
def addSolverId (w : Wrapper I R) (id : I) : Wrapper I R :=
  { w with solverIds := w.solverIds ++ [id], nranks := (w.solverIds ++ [id]).length }

/-- `setSolverIds`. -/
def setSolverIds (w : Wrapper I R) (ids : List I) : Wrapper I R :=
  { w with solverIds := ids, nranks := ids.length }

/-- `int local_seed_offset = _rank*std::ceil(num_required_threads/_nranks)`. There is no
such value when `_nranks` is zero, or the product does not fit an `int`. -/
def seedOffset (rank nranks numReps : ℕ) : Option ℤ :=
  if nranks = 0 then none
  else if rank * ((numReps + nranks - 1) / nranks) < 2 ^ 31 then
    some (rank * ((numReps + nranks - 1) / nranks) : ℕ)
  else none

/-- The call of `spawn`, up to its loop: the second thread is started. -/
def spawnCall (w : Wrapper I R) (numReps : ℕ) : Wrapper I R :=
  { w with
    totalCompleted := 0
    localSeedOffset := seedOffset w.rank w.nranks numReps
    collectAt := .loopTest
    remaining := numReps
    seed := 0
    spawnAt := .loopTest }

/-- `bool futures_waiting = false`, which nothing changes. -/
def futuresWaiting : Bool := false

/-- `seed + local_seed_offset`, an `uint64_t`, as the `int` that `run_one` is given. -/
def seedArgument (seed : ℕ) (offset : ℤ) : ℤ := ((seed : ℤ) + offset).bmod (2 ^ 32)

/-- The end of the `for` loop, and the test of the `do` loop. -/
def endFor (enough : Bool) (w : Wrapper I R) : Wrapper I R :=
  { w with spawnAt := if !enough && 0 < w.remaining then .lock else .loopTest }

/-- `if (remaining==0) break;` -/
def endBody (rest : List I) (enough : Bool) (w : Wrapper I R) : Wrapper I R :=
  if w.remaining = 0 then endFor enough w else { w with spawnAt := .launch rest enough }

/-- After the `for` loop another turn of the `do` loop is taken when one is needed. -/
theorem endFor_cases (enough : Bool) (w : Wrapper I R) :
    (endFor enough w = { w with spawnAt := .lock } ∧ enough = false ∧ 0 < w.remaining) ∨
      endFor enough w = { w with spawnAt := .loopTest } := by
  cases enough with
  | true => exact Or.inr rfl
  | false =>
      by_cases hr : 0 < w.remaining
      · exact Or.inl ⟨by simp [endFor, hr], rfl, hr⟩
      · exact Or.inr (by simp [endFor, hr])

/-- After a turn of the `for` loop it goes on when repetitions remain. -/
theorem endBody_cases (rest : List I) (enough : Bool) (w : Wrapper I R) :
    (endBody rest enough w = { w with spawnAt := .launch rest enough } ∧ 0 < w.remaining) ∨
      (endBody rest enough w = { w with spawnAt := .loopTest } ∧ w.remaining = 0) := by
  by_cases hr : w.remaining = 0
  · exact Or.inr ⟨by simp [endBody, endFor, hr], hr⟩
  · exact Or.inl ⟨by simp [endBody, hr], Nat.pos_of_ne_zero hr⟩

section Steps

variable [DecidableEq I]

/-- `_async_results[s].push(hpx::async(solve_step, s, args..., seed + local_seed_offset))`,
with the counters. -/
def launchOn (s : I) (offset : ℤ) (w : Wrapper I R) : Wrapper I R :=
  { w with
    asyncResults := Function.update w.asyncResults s
      (w.asyncResults s ++ [⟨seedArgument w.seed offset, none⟩])
    seed := w.seed + 1
    remaining := w.remaining - 1
    launched := w.launched ++ [(s, seedArgument w.seed offset)] }

/-- A step of `spawn`. Without a value for `local_seed_offset` no launch is defined. -/
def spawnStep (w : Wrapper I R) : Option (Wrapper I R) :=
  match w.spawnAt with
  | .idle => none
  | .loopTest =>
      if !w.abort && (futuresWaiting || 0 < w.remaining) then
        -- `if (remaining>0) do`
        some { w with spawnAt := if 0 < w.remaining then .lock else .loopTest }
      else some { w with spawnAt := .join }
  | .lock => some { w with spawnAt := .launch w.solverIds true }
  | .launch [] enough => some (endFor enough w)
  | .launch (s :: rest) enough =>
      if (w.asyncResults s).length < w.osThreads * 5 then
        match w.localSeedOffset with
        | none => none
        | some offset => some (endBody rest false (launchOn s offset w))
      else some (endBody rest enough w)
  | .join =>
      match w.collectAt with
      | .done => some { w with spawnAt := .returned w.repetitionResultsVector }
      | _ => none
  | .returned _ => none

/-- The future at the front of a queue is ready: its result is kept, and it is popped. -/
def collectFrom (s : I) (seed : ℤ) (r : R) (w : Wrapper I R) : Wrapper I R :=
  { w with
    repetitionResultsVector := w.repetitionResultsVector ++ [r]
    asyncResults := Function.update w.asyncResults s (w.asyncResults s).tail
    totalCompleted := w.totalCompleted + 1
    collected := w.collected ++ [(s, seed)] }

/-- `hpx::is_running() && !self->_abort`. -/
def goesOn (w : Wrapper I R) : Bool := w.isRunning && !w.abort

/-- A step of `remove_completed_solver_steps`. -/
def collectStep (w : Wrapper I R) : Option (Wrapper I R) :=
  match w.collectAt with
  | .idle => none
  | .loopTest => some { w with collectAt := if w.goesOn then .lock else .done }
  | .lock => some { w with collectAt := .pass w.solverIds }
  | .pass [] => some { w with collectAt := .loopTest }
  | .pass (s :: rest) =>
      match w.asyncResults s with
      | ⟨seed, some r⟩ :: _ => some (collectFrom s seed r w)
      -- `tasks.empty()`, or `break` at a front that is not ready
      | _ => some { w with collectAt := .pass rest }
  | .done => none

/-- Future `j` of the queue of `s` becomes ready. -/
def makeReady (s : I) (j : ℕ) (seed : ℤ) (r : R) (w : Wrapper I R) : Wrapper I R :=
  { w with
    asyncResults := Function.update w.asyncResults s
      ((w.asyncResults s).set j ⟨seed, some r⟩) }

/-- A solve returns, once, and its future becomes ready. -/
def completeStep (runOne : I → ℤ → Option R) (s : I) (j : ℕ) (w : Wrapper I R) :
    Option (Wrapper I R) :=
  match (w.asyncResults s)[j]? with
  | some ⟨seed, none⟩ => (runOne s seed).map fun r => makeReady s j seed r w
  | _ => none

/-- What an event does. -/
def step (runOne : I → ℤ → Option R) : Event I → Wrapper I R → Option (Wrapper I R)
  | .spawn, w => spawnStep w
  | .collect, w => collectStep w
  | .complete s j, w => completeStep runOne s j w
  | .addSolverId id, w => if w.idsLocked then none else some (w.addSolverId id)
  | .setSolverIds ids, w => if w.idsLocked then none else some (w.setSolverIds ids)
  | .abort, w => some { w with abort := true }
  | .shutdown, w => some { w with isRunning := false }

/-! ## What an event does, case by case -/

/-- Everything an event can do: the guard of the case, and the state after it. -/
inductive Happens (runOne : I → ℤ → Option R) :
    Event I → Wrapper I R → Wrapper I R → Prop
  | loopOn {w} : w.spawnAt = .loopTest → w.abort = false → 0 < w.remaining →
      Happens runOne .spawn w { w with spawnAt := .lock }
  | loopEnd {w} : w.spawnAt = .loopTest → (w.abort = true ∨ w.remaining = 0) →
      Happens runOne .spawn w { w with spawnAt := .join }
  | spawnLock {w} : w.spawnAt = .lock →
      Happens runOne .spawn w { w with spawnAt := .launch w.solverIds true }
  | forEnd {w enough} : w.spawnAt = .launch [] enough →
      Happens runOne .spawn w (endFor enough w)
  | launch {w s rest enough offset} : w.spawnAt = .launch (s :: rest) enough →
      w.localSeedOffset = some offset → (w.asyncResults s).length < w.osThreads * 5 →
      Happens runOne .spawn w (endBody rest false (launchOn s offset w))
  | full {w s rest enough} : w.spawnAt = .launch (s :: rest) enough →
      w.osThreads * 5 ≤ (w.asyncResults s).length →
      Happens runOne .spawn w (endBody rest enough w)
  | returns {w} : w.spawnAt = .join → w.collectAt = .done →
      Happens runOne .spawn w { w with spawnAt := .returned w.repetitionResultsVector }
  | collectOn {w} : w.collectAt = .loopTest → w.goesOn = true →
      Happens runOne .collect w { w with collectAt := .lock }
  | collectEnd {w} : w.collectAt = .loopTest → w.goesOn = false →
      Happens runOne .collect w { w with collectAt := .done }
  | collectLock {w} : w.collectAt = .lock →
      Happens runOne .collect w { w with collectAt := .pass w.solverIds }
  | passEnd {w} : w.collectAt = .pass [] →
      Happens runOne .collect w { w with collectAt := .loopTest }
  | collect {w s rest seed r tasks} : w.collectAt = .pass (s :: rest) →
      w.asyncResults s = ⟨seed, some r⟩ :: tasks →
      Happens runOne .collect w (collectFrom s seed r w)
  | passOn {w s rest} : w.collectAt = .pass (s :: rest) →
      (∀ t ∈ (w.asyncResults s).head?, t.value = none) →
      Happens runOne .collect w { w with collectAt := .pass rest }
  | complete {w s j seed r} : (w.asyncResults s)[j]? = some ⟨seed, none⟩ →
      runOne s seed = some r → Happens runOne (.complete s j) w (makeReady s j seed r w)
  | addSolverId {w id} : w.idsLocked = false →
      Happens runOne (.addSolverId id) w (w.addSolverId id)
  | setSolverIds {w ids} : w.idsLocked = false →
      Happens runOne (.setSolverIds ids) w (w.setSolverIds ids)
  | abort {w} : Happens runOne .abort w { w with abort := true }
  | shutdown {w} : Happens runOne .shutdown w { w with isRunning := false }

theorem spawnStep_happens {runOne : I → ℤ → Option R} {w w' : Wrapper I R}
    (h : spawnStep w = some w') : Happens runOne .spawn w w' := by
  unfold spawnStep at h
  cases hat : w.spawnAt with
  | idle => simp [hat] at h
  | loopTest =>
      by_cases hgo : w.abort = false ∧ 0 < w.remaining
      · have htest : (!w.abort && (futuresWaiting || decide (0 < w.remaining))) = true := by
          simp [hgo.1, hgo.2]
        simp only [hat] at h
        rw [if_pos htest, if_pos hgo.2] at h
        cases h
        exact Happens.loopOn hat hgo.1 hgo.2
      · have hend : w.abort = true ∨ w.remaining = 0 := by
          rcases Bool.eq_false_or_eq_true w.abort with ha | ha
          · exact Or.inl ha
          · exact Or.inr (Nat.eq_zero_of_not_pos fun hr => hgo ⟨ha, hr⟩)
        have htest : (!w.abort && (futuresWaiting || decide (0 < w.remaining))) = false := by
          rcases hend with ha | hr
          · simp [ha]
          · simp [hr, futuresWaiting]
        simp only [hat, htest, Bool.false_eq_true, if_false, Option.some.injEq] at h
        cases h
        exact Happens.loopEnd hat hend
  | lock =>
      simp only [hat, Option.some.injEq] at h
      cases h
      exact Happens.spawnLock hat
  | launch rest enough =>
      cases rest with
      | nil =>
          simp only [hat, Option.some.injEq] at h
          cases h
          exact Happens.forEnd hat
      | cons s rest =>
          by_cases hroom : (w.asyncResults s).length < w.osThreads * 5
          · cases hoff : w.localSeedOffset with
            | none => simp [hat, hroom, hoff] at h
            | some offset =>
                simp only [hat, hroom, hoff, if_true, Option.some.injEq] at h
                cases h
                exact Happens.launch hat hoff hroom
          · simp only [hat, hroom, if_false, Option.some.injEq] at h
            cases h
            exact Happens.full hat (Nat.le_of_not_lt hroom)
  | join =>
      simp only [hat] at h
      split at h
      · rename_i hcol
        cases h
        exact Happens.returns hat hcol
      · cases h
  | returned x => simp [hat] at h

theorem collectStep_happens {runOne : I → ℤ → Option R} {w w' : Wrapper I R}
    (h : collectStep w = some w') : Happens runOne .collect w w' := by
  unfold collectStep at h
  cases hat : w.collectAt with
  | idle => simp [hat] at h
  | loopTest =>
      cases hgo : w.goesOn with
      | true =>
          simp only [hat, hgo, if_true, Option.some.injEq] at h
          cases h
          exact Happens.collectOn hat hgo
      | false =>
          simp only [hat, hgo, Bool.false_eq_true, if_false, Option.some.injEq] at h
          cases h
          exact Happens.collectEnd hat hgo
  | lock =>
      simp only [hat, Option.some.injEq] at h
      cases h
      exact Happens.collectLock hat
  | pass rest =>
      cases rest with
      | nil =>
          simp only [hat, Option.some.injEq] at h
          cases h
          exact Happens.passEnd hat
      | cons s rest =>
          cases hq : w.asyncResults s with
          | nil =>
              simp only [hat, hq, Option.some.injEq] at h
              cases h
              exact Happens.passOn hat (by simp [hq])
          | cons t tasks =>
              obtain ⟨seed, value⟩ := t
              cases value with
              | none =>
                  simp only [hat, hq, Option.some.injEq] at h
                  cases h
                  exact Happens.passOn hat (by simp [hq])
              | some r =>
                  simp only [hat, hq, Option.some.injEq] at h
                  cases h
                  exact Happens.collect hat hq
  | done => simp [hat] at h

theorem completeStep_happens {runOne : I → ℤ → Option R} {s : I} {j : ℕ} {w w' : Wrapper I R}
    (h : completeStep runOne s j w = some w') : Happens runOne (.complete s j) w w' := by
  unfold completeStep at h
  cases ht : (w.asyncResults s)[j]? with
  | none => simp [ht] at h
  | some t =>
      obtain ⟨seed, value⟩ := t
      cases value with
      | some r => simp [ht] at h
      | none =>
          simp only [ht] at h
          obtain ⟨r, hr, hw⟩ := Option.map_eq_some_iff.mp h
          cases hw
          exact Happens.complete ht hr

/-- **The cases are all there are.** -/
theorem step_happens {runOne : I → ℤ → Option R} {e : Event I} {w w' : Wrapper I R}
    (h : step runOne e w = some w') : Happens runOne e w w' := by
  cases e with
  | spawn => exact spawnStep_happens h
  | collect => exact collectStep_happens h
  | complete s j => exact completeStep_happens h
  | addSolverId id =>
      cases hlock : w.idsLocked with
      | true => simp [step, hlock] at h
      | false =>
          simp only [step, hlock, Bool.false_eq_true, if_false, Option.some.injEq] at h
          cases h
          exact Happens.addSolverId hlock
  | setSolverIds ids =>
      cases hlock : w.idsLocked with
      | true => simp [step, hlock] at h
      | false =>
          simp only [step, hlock, Bool.false_eq_true, if_false, Option.some.injEq] at h
          cases h
          exact Happens.setSolverIds hlock
  | abort =>
      cases h
      exact Happens.abort
  | shutdown =>
      cases h
      exact Happens.shutdown

/-! ## What a step of `spawn` does -/

/-- A position that one step of `spawn` leads to. -/
structure MovesTo (w : Wrapper I R) (position : SpawnAt I R) : Prop where
  called : position ≠ .idle
  join : position = .join → w.abort = true ∨ w.remaining = 0
  rest : ∀ rest enough, position = .launch rest enough →
    rest = w.solverIds ∨ ∃ s enough', w.spawnAt = .launch (s :: rest) enough'
  returned : ∀ x, position = .returned x →
    w.collectAt = .done ∧ w.repetitionResultsVector = x

omit [DecidableEq I] in
/-- After a turn of the `for` loop only the position has changed. -/
theorem endBody_moves {w v : Wrapper I R} {s : I} {rest : List I} {enough : Bool}
    (hat : w.spawnAt = .launch (s :: rest) enough) (enough' : Bool) :
    ∃ position, MovesTo w position ∧ endBody rest enough' v = { v with spawnAt := position } := by
  rcases endBody_cases rest enough' v with ⟨hv, -⟩ | ⟨hv, -⟩
  · refine ⟨_, ⟨by simp, by simp, fun rest' enough₀ heq => Or.inr ?_, by simp⟩, hv⟩
    cases heq
    exact ⟨s, enough, hat⟩
  · exact ⟨_, ⟨by simp, by simp, by simp, by simp⟩, hv⟩

/-- **A step of `spawn`** moves its thread, and launches at most one solve. -/
theorem Happens.spawn_moves {runOne : I → ℤ → Option R} {w w' : Wrapper I R}
    (h : Happens runOne .spawn w w') :
    ∃ position, MovesTo w position ∧
      (w' = { w with spawnAt := position } ∨
        ∃ s rest enough offset, w.spawnAt = .launch (s :: rest) enough ∧
          w.localSeedOffset = some offset ∧ (w.asyncResults s).length < w.osThreads * 5 ∧
          w' = { launchOn s offset w with spawnAt := position }) := by
  cases h with
  | loopOn hat ha hr => exact ⟨_, ⟨by simp, by simp, by simp, by simp⟩, Or.inl rfl⟩
  | loopEnd hat hend => exact ⟨_, ⟨by simp, fun _ => hend, by simp, by simp⟩, Or.inl rfl⟩
  | spawnLock hat =>
      refine ⟨_, ⟨by simp, by simp, fun rest enough heq => Or.inl ?_, by simp⟩, Or.inl rfl⟩
      cases heq
      rfl
  | forEnd hat =>
      rcases endFor_cases _ w with ⟨hw, -, -⟩ | hw
      · exact ⟨_, ⟨by simp, by simp, by simp, by simp⟩, Or.inl hw⟩
      · exact ⟨_, ⟨by simp, by simp, by simp, by simp⟩, Or.inl hw⟩
  | @launch _ s rest enough offset hat hoff hroom =>
      obtain ⟨position, hmoves, hw⟩ := endBody_moves (v := launchOn s offset w) hat false
      exact ⟨position, hmoves, Or.inr ⟨s, rest, enough, offset, hat, hoff, hroom, hw⟩⟩
  | @full _ s rest enough hat hfull =>
      obtain ⟨position, hmoves, hw⟩ := endBody_moves (v := w) hat enough
      exact ⟨position, hmoves, Or.inl hw⟩
  | returns hat hcol =>
      refine ⟨_, ⟨by simp, by simp, by simp, fun x hx => ⟨hcol, ?_⟩⟩, Or.inl rfl⟩
      cases hx
      rfl

end Steps

end Wrapper

end SpinGlass
