import SpinGlass.Accounting
import Mathlib.Algebra.Order.BigOperators.Group.List
import Mathlib.Algebra.Order.Group.Nat

/-!
# Progress — how far each of the two threads gets on its own

`collectStep` and `spawnStep` can be taken in all but a few positions, and a
measure on the positions shows where they lead: a pass of the collecting
thread comes to its end, and with `_abort` set the launching thread leaves
its loop.
-/

namespace SpinGlass

namespace Wrapper

open Transition

variable {I R : Type} [DecidableEq I] {runOne : I → ℤ → Option R}

/-! ## The collecting thread -/

/-- The thread in `remove_completed_solver_steps` has been started and has not ended. -/
def Collecting (w : Wrapper I R) : Prop := w.collectAt ≠ .idle ∧ w.collectAt ≠ .done

theorem exists_collectStep (runOne : I → ℤ → Option R) {w : Wrapper I R} (h : w.Collecting) :
    ∃ w', step runOne .collect w = some w' := by
  show ∃ w', collectStep w = some w'
  unfold collectStep
  cases hat : w.collectAt with
  | idle => exact absurd hat h.1
  | done => exact absurd hat h.2
  | loopTest | lock => exact ⟨_, rfl⟩
  | pass rest =>
      cases rest with
      | nil => exact ⟨_, rfl⟩
      | cons s rest =>
          simp only
          split
          · exact ⟨_, rfl⟩
          · exact ⟨_, rfl⟩

/-- The work that is left to a pass over `rest`. -/
def passWork (w : Wrapper I R) (rest : List I) : ℕ :=
  (rest.map fun s => (w.asyncResults s).length + 1).sum

/-- The steps that are left up to the end of the pass. -/
def collectMeasure (w : Wrapper I R) : ℕ :=
  match w.collectAt with
  | .lock => w.passWork w.solverIds + 2
  | .pass rest => w.passWork rest + 1
  | _ => 0

theorem passWork_collectFrom_le (s : I) (seed : ℤ) (r : R) (w : Wrapper I R) (rest : List I) :
    (collectFrom s seed r w).passWork rest ≤ w.passWork rest := by
  apply List.sum_le_sum
  intro s' _
  by_cases hs : s' = s
  · subst hs
    simp [collectFrom]
  · simp [collectFrom, Function.update_of_ne hs]

theorem passWork_collectFrom_lt {s : I} (seed : ℤ) (r : R) {w : Wrapper I R} {t : Task R}
    {tasks : List (Task R)} (hq : w.asyncResults s = t :: tasks) (rest : List I) :
    (collectFrom s seed r w).passWork (s :: rest) < w.passWork (s :: rest) := by
  have hle := passWork_collectFrom_le s seed r w rest
  simp only [passWork, List.map_cons, List.sum_cons] at hle ⊢
  have hhead : ((collectFrom s seed r w).asyncResults s).length + 1
      < (w.asyncResults s).length + 1 := by
    simp [collectFrom, hq]
  omega

/-- **A pass comes to its end**, and keeps what every step of the thread keeps. -/
theorem exists_loopTest {P : Wrapper I R → Prop}
    (hP : ∀ w w', P w → Happens runOne .collect w w' → P w') {w : Wrapper I R} (h : P w)
    (hcol : w.Collecting) :
    ∃ w', Reaches (step runOne) (fun e => e = .collect) w w' ∧ P w' ∧
      w'.collectAt = .loopTest := by
  have hprogress : ∀ u : Wrapper I R, P u ∧ u.Collecting → ¬ u.collectAt = .loopTest →
      ∃ e u', e = Event.collect ∧ step runOne e u = some u' ∧ (P u' ∧ u'.Collecting) ∧
        u'.collectMeasure < u.collectMeasure := by
    intro u hu hgoal
    obtain ⟨u', hstep⟩ := exists_collectStep runOne hu.2
    have hhappens := step_happens hstep
    refine ⟨.collect, u', rfl, hstep, ⟨hP u u' hu.1 hhappens, ?_⟩, ?_⟩
    · cases hhappens with
      | collectOn hat hgo => exact absurd hat hgoal
      | collectEnd hat hgo => exact absurd hat hgoal
      | collectLock | passEnd | passOn => simp [Collecting]
      | collect hat hq => exact hu.2
    · cases hhappens with
      | collectOn hat hgo => exact absurd hat hgoal
      | collectEnd hat hgo => exact absurd hat hgoal
      | collectLock hat =>
          simp only [collectMeasure, hat]
          exact Nat.lt_succ_self _
      | passEnd hat => simp [collectMeasure, hat]
      | @collect _ s rest seed r tasks hat hq =>
          have hlt := passWork_collectFrom_lt seed r hq rest
          have hat' : (collectFrom s seed r u).collectAt = .pass (s :: rest) := hat
          simp only [collectMeasure, hat, hat']
          omega
      | passOn hat hfront =>
          simp only [collectMeasure, hat, passWork, List.map_cons, List.sum_cons]
          omega
  obtain ⟨w', hreach, ⟨hPw, -⟩, hat⟩ := exists_reaches_of_measure _ _ _ hprogress ⟨h, hcol⟩
  exact ⟨w', hreach, hPw, hat⟩

/-! ## The launching thread -/

/-- `spawn` has been called, its offset has a value, `_abort` is set, and the collecting
thread has ended. -/
structure Leaving (w : Wrapper I R) : Prop where
  abort : w.abort = true
  done : w.collectAt = .done
  called : w.spawnAt ≠ .idle
  offset : w.localSeedOffset ≠ none
  inLoop : w.InLoop → 0 < w.remaining

/-- The steps of `spawn` keep this. -/
theorem Leaving.step {w w' : Wrapper I R} (h : Leaving w) (hstep : Happens runOne .spawn w w') :
    Leaving w' := by
  have hin := hstep.remaining_pos h.inLoop
  obtain ⟨position, hmoves, hw⟩ := hstep.spawn_moves
  rcases hw with rfl | ⟨s, rest, enough, offset, -, -, -, rfl⟩
  · exact ⟨h.abort, h.done, hmoves.called, h.offset, hin⟩
  · exact ⟨h.abort, h.done, hmoves.called, h.offset, hin⟩

/-- The thread in `spawn` waits for nothing but the end of the collecting thread. -/
theorem exists_spawnStep (runOne : I → ℤ → Option R) {w : Wrapper I R}
    (hoffset : w.localSeedOffset ≠ none) (hcalled : w.spawnAt ≠ .idle)
    (hdone : w.spawnAt = .join → w.collectAt = .done)
    (hnot : ∀ x, w.spawnAt ≠ .returned x) : ∃ w', Wrapper.step runOne .spawn w = some w' := by
  show ∃ w', spawnStep w = some w'
  unfold spawnStep
  cases hat : w.spawnAt with
  | idle => exact absurd hat hcalled
  | returned x => exact absurd hat (hnot x)
  | loopTest =>
      simp only
      split
      · exact ⟨_, rfl⟩
      · exact ⟨_, rfl⟩
  | lock => exact ⟨_, rfl⟩
  | join =>
      simp only [hdone hat]
      exact ⟨_, rfl⟩
  | launch rest enough =>
      cases rest with
      | nil => exact ⟨_, rfl⟩
      | cons s rest =>
          obtain ⟨offset, hoff⟩ := Option.ne_none_iff_exists'.mp hoffset
          by_cases hroom : (w.asyncResults s).length < w.osThreads * 5
          · simp only [hroom, hoff, if_true]
            exact ⟨_, rfl⟩
          · simp only [hroom, if_false]
            exact ⟨_, rfl⟩

/-- The steps that are left at a position without another launch, for `n` solvers. -/
def positionMeasure (n : ℕ) : SpawnAt I R → ℕ
  | .loopTest => 2
  | .lock => n + 4
  | .launch rest enough => rest.length + (if enough then 3 else n + 6)
  | .join => 1
  | _ => 0

/-- The steps that are left up to the return of `spawn`: a launch leaves one repetition
less, which outweighs that a pass with a launch is followed by another. -/
def spawnMeasure (w : Wrapper I R) : ℕ :=
  w.remaining * (w.solverIds.length + 3) + positionMeasure w.solverIds.length w.spawnAt

/-- A step of `spawn` makes the measure smaller, unless it enters the loop. -/
theorem spawnMeasure_lt {w w' : Wrapper I R} (habort : w.spawnAt = .loopTest → w.abort = true)
    (hin : w.InLoop → 0 < w.remaining) (hstep : Happens runOne .spawn w w') :
    w'.spawnMeasure < w.spawnMeasure := by
  cases hstep with
  | loopOn hat ha hr => exact absurd ((habort hat).symm.trans ha) (by simp)
  | loopEnd hat hend => simp [spawnMeasure, positionMeasure, hat]
  | spawnLock hat => simp [spawnMeasure, positionMeasure, hat]
  | @forEnd _ enough hat =>
      rcases endFor_cases enough w with ⟨hw, rfl, -⟩ | hw
      · rw [hw]
        simp [spawnMeasure, positionMeasure, hat]
      · rw [hw]
        cases enough <;> simp [spawnMeasure, positionMeasure, hat]
  | @launch _ s rest enough offset hat hoff hroom =>
      have hpos := hin (Or.inr ⟨_, _, hat⟩)
      -- the repetition that is launched pays for one more pass over the solvers
      have hweight : (w.remaining - 1) * (w.solverIds.length + 3) + (w.solverIds.length + 3)
          = w.remaining * (w.solverIds.length + 3) := by
        rw [← Nat.succ_mul, Nat.succ_eq_add_one, Nat.sub_add_cancel hpos]
      rcases endBody_cases rest false (launchOn s offset w) with ⟨hw, -⟩ | ⟨hw, -⟩
      · rw [hw]
        show (w.remaining - 1) * (w.solverIds.length + 3) + (rest.length + (_ + 6))
          < w.remaining * (w.solverIds.length + 3) + positionMeasure _ w.spawnAt
        rw [hat, ← hweight]
        cases enough <;> simp [positionMeasure, launchOn] <;> omega
      · rw [hw]
        show (w.remaining - 1) * (w.solverIds.length + 3) + 2
          < w.remaining * (w.solverIds.length + 3) + positionMeasure _ w.spawnAt
        rw [← hweight]
        omega
  | @full _ s rest enough hat hfull =>
      rcases endBody_cases rest enough w with ⟨hw, -⟩ | ⟨hw, -⟩
      · rw [hw]
        simp [spawnMeasure, positionMeasure, hat]
      · rw [hw]
        cases enough with
        | true => simp [spawnMeasure, positionMeasure, hat]
        | false =>
            simp only [spawnMeasure, positionMeasure, hat, List.length_cons, if_false,
              Bool.false_eq_true]
            omega
  | returns hat hcol => simp [spawnMeasure, positionMeasure, hat]

/-- **`spawn` returns** once `_abort` is set and the collecting thread has ended. -/
theorem exists_returned {P : Wrapper I R → Prop}
    (hP : ∀ w w', P w → Happens runOne .spawn w w' → P w') {w : Wrapper I R} (h : P w)
    (hleaving : Leaving w) :
    ∃ w', Reaches (step runOne) (fun e => e = .spawn) w w' ∧ P w' ∧
      ∃ x, w'.spawnAt = .returned x := by
  have hprogress : ∀ u : Wrapper I R, P u ∧ Leaving u → ¬ (∃ x, u.spawnAt = .returned x) →
      ∃ e u', e = Event.spawn ∧ step runOne e u = some u' ∧ (P u' ∧ Leaving u') ∧
        u'.spawnMeasure < u.spawnMeasure := by
    intro u hu hgoal
    obtain ⟨u', hstep⟩ := exists_spawnStep runOne hu.2.offset hu.2.called (fun _ => hu.2.done)
      fun x hx => hgoal ⟨x, hx⟩
    have hhappens := step_happens hstep
    exact ⟨.spawn, u', rfl, hstep, ⟨hP u u' hu.1 hhappens, hu.2.step hhappens⟩,
      spawnMeasure_lt (fun _ => hu.2.abort) hu.2.inLoop hhappens⟩
  obtain ⟨w', hreach, ⟨hPw, -⟩, hat⟩ :=
    exists_reaches_of_measure _ _ _ hprogress ⟨h, hleaving⟩
  exact ⟨w', hreach, hPw, hat⟩

end Wrapper

end SpinGlass
